/-!
# Blank characters

Two sets of blanks are in use.

* `isBlank` is the Unicode property `White_Space`. Lines, fragments and list items are trimmed by
  it, and patterns that allow white space allow any of it.
* `isSpace` is its ASCII part without the vertical tab. Only these separate tokens.

Results:
* `isBlank_of_isSpace`: every space is blank.
* `length_trimStart_le`: trimming never lengthens a text.
-/
namespace HeaderOutline.Text

/-- White space in the sense of Unicode. -/
def isBlank (c : Char) : Bool :=
  let n := c.toNat
  n == 0x20 || (0x09 ≤ n && n ≤ 0x0D) || n == 0x85 || n == 0xA0 || n == 0x1680 ||
    (0x2000 ≤ n && n ≤ 0x200A) || n == 0x2028 || n == 0x2029 || n == 0x202F || n == 0x205F ||
    n == 0x3000

/-- The separators of tokens: space, tab, line feed, form feed, carriage return. -/
def isSpace (c : Char) : Bool :=
  let n := c.toNat
  n == 0x20 || n == 0x09 || n == 0x0A || n == 0x0C || n == 0x0D

theorem isBlank_of_isSpace {c : Char} (h : isSpace c = true) : isBlank c = true := by
  simp only [isSpace, Bool.or_eq_true, beq_iff_eq] at h
  simp only [isBlank, Bool.or_eq_true, Bool.and_eq_true, beq_iff_eq, decide_eq_true_eq]
  omega

/-! ## Trimming -/

/-- Drops the blanks in front. -/
def trimStart (cs : List Char) : List Char :=
  cs.dropWhile isBlank

def trimEnd (cs : List Char) : List Char :=
  (trimStart cs.reverse).reverse

def trim (cs : List Char) : List Char :=
  trimEnd (trimStart cs)

theorem trimStart_suffix (cs : List Char) : trimStart cs <:+ cs :=
  List.dropWhile_suffix isBlank

theorem length_trimStart_le (cs : List Char) : (trimStart cs).length ≤ cs.length :=
  (trimStart_suffix cs).length_le

/-! ## Words -/

/-- The maximal runs of characters that are not blank. -/
def words (cs : List Char) : List (List Char) :=
  match cs with
  | [] => []
  | c :: r =>
    if isBlank c then words r
    else (c :: r.takeWhile fun x => !isBlank x) :: words (r.dropWhile fun x => !isBlank x)
termination_by cs.length
decreasing_by
  · simp
  · have := (List.dropWhile_suffix (l := r) (fun x => !isBlank x)).length_le
    simp only [List.length_cons]
    omega

end HeaderOutline.Text
