import InoBlocks.Text.Class

/-!
# Masking

A sketch with its comments and the insides of its quoted texts blanked out, so that what stands
in them is not taken for code.  Every character keeps its offset.
-/

namespace InoBlocks

/-- What a character of a sketch can be part of. -/
inductive Region where
  | code
  | lineComment
  | blockComment
  /-- The inside of a text in quotes of one kind. -/
  | literal (quote : Char)
  deriving DecidableEq, Repr

namespace Region

def afterCode (c : Char) : Region :=
  if c == '"' || c == '\'' then literal c else code

end Region

/-- A blank in place of a character; line feeds stay. -/
def blanked (c : Char) : Char :=
  if c == '\n' then c else ' '

/-- Mask a text that begins in a region.  A text in quotes ends at its line unless the line feed
stands behind a backslash. -/
def maskFrom : Region → List Char → List Char
  | _, [] => []
  | .code, '/' :: '/' :: cs => ' ' :: ' ' :: maskFrom .lineComment cs
  | .code, '/' :: '*' :: cs => ' ' :: ' ' :: maskFrom .blockComment cs
  | .code, c :: cs => c :: maskFrom (Region.afterCode c) cs
  | .lineComment, c :: cs =>
      blanked c :: maskFrom (if c == '\n' then .code else .lineComment) cs
  | .blockComment, '*' :: '/' :: cs => ' ' :: ' ' :: maskFrom .code cs
  | .blockComment, c :: cs => blanked c :: maskFrom .blockComment cs
  | .literal q, '\\' :: _ :: cs => ' ' :: ' ' :: maskFrom (.literal q) cs
  | .literal q, c :: cs =>
      if c == q then c :: maskFrom .code cs
      else blanked c :: maskFrom (if c == '\n' then .code else .literal q) cs

def mask (cs : List Char) : List Char :=
  maskFrom .code cs

def masked (s : String) : String :=
  String.ofList (mask s.toList)

theorem maskFrom_length (r : Region) (cs : List Char) :
    (maskFrom r cs).length = cs.length := by
  fun_induction maskFrom r cs <;> simp_all

end InoBlocks
