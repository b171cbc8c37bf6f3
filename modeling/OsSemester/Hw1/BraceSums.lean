import OsSemester.Hw1.MaxSubarray

/-!
# Sums of groups in braces (`3/main.c`)

`main` reads a line, notes the positions of its braces, and looks for each closing brace for the last
opening brace in front of it that has not been used.  `findNum` adds the numbers in between: it copies
the digits to the rows of an array, one row from comma to comma, and reads each row as a number.
What is out of bounds or overflows is undefined behaviour, `none` here.
-/

namespace OsSemester.Hw1.BraceSums

open MaxSubarray (IsInt addInt)

/-- The character at the end of a string. -/
def nul : Char := Char.ofNat 0

/-- The product of two `int`s. -/
def mulInt (x y : ℤ) : Option ℤ := if IsInt (x * y) then some (x * y) else none

def INT_MAX : ℕ := 2147483647

/-! ### `findNum` -/

/-- The array `hold[100][100]`, and where the next character goes. -/
structure Hold where
  cell : ℕ → ℕ → Char
  count : ℕ
  tmp : ℕ

namespace Hold

def init : Hold := ⟨fun _ _ => nul, 0, 0⟩

/-- `hold[count][tmp] = c; tmp++;` -/
def put (h : Hold) (c : Char) : Option Hold :=
  if h.count < 100 ∧ h.tmp < 100 then
    some { h with
      cell := Function.update h.cell h.count (Function.update (h.cell h.count) h.tmp c)
      tmp := h.tmp + 1 }
  else none

/-- One round of the first loop of `findNum`. -/
def char (h : Hold) (c : Char) : Option Hold :=
  (if c ≠ ' ' ∧ c ≠ ',' ∧ c ≠ '{' ∧ c ≠ '}' then h.put c else some h).map fun h =>
    if c = ',' then { h with tmp := 0, count := h.count + 1 } else h

end Hold

/-- The inner loop over the row from `j` on, with `n` characters left in it. -/
def rowValue (row : ℕ → Char) : ℕ → ℕ → ℤ → Option ℤ
  | 0, _, _ => none
  | n + 1, j, tmp =>
    if row j = nul then some tmp
    else if n = 0 then none
    else do
      let tmp ← addInt tmp ((row j).toNat - '0'.toNat)
      if row (j + 1) = nul then rowValue row n (j + 1) tmp
      else rowValue row n (j + 1) (← mulInt tmp 10)

/-- The outer loop over the rows from `i` on, with `k` rows left. -/
def sumRows (cell : ℕ → ℕ → Char) : ℕ → ℕ → ℤ → Option ℤ
  | 0, _, res => some res
  | k + 1, i, res => do
    let tmp ← if i < 100 then rowValue (cell i) 100 0 0 else none
    let res ← addInt res tmp
    sumRows cell k (i + 1) res

def findNum (arr : List Char) (min max : ℕ) : Option ℤ := do
  let h ← ((arr.take max).drop min).foldlM Hold.char Hold.init
  sumRows h.cell (h.count + 1) 0 0

/-! ### `main` -/

/-- The positions of a character, the first one of the text being `k`. -/
def positions (b : Char) (k : ℕ) (text : List Char) : List ℕ :=
  ((text.zipIdx k).filter fun x => x.1 = b).map Prod.snd

/-- The loop over `j` from `j - 1` down for the closing brace at `c`: `open` and `res` afterwards. -/
def matchLoop (arr : List Char) (c : ℕ) :
    ℕ → Bool → List ℕ × List ℤ → Option (List ℕ × List ℤ)
  | 0, _, s => some s
  | j + 1, test, s =>
    if s.1.getD j 0 < c ∧ test = true then do
      let sum ← findNum arr (s.1.getD j 0) c
      matchLoop arr c j false (s.1.set j INT_MAX, s.2 ++ [sum])
    else matchLoop arr c j test s

/-- `main` on the line: the numbers that it prints, each on a line of its own. -/
def main (line : List Char) : Option (List ℤ) :=
  if line.length < 100 then
    let inpArr := line ++ List.replicate (100 - line.length) nul
    let opens := positions '{' 0 inpArr
    let close := positions '}' 0 inpArr
    ((List.range opens.length).foldlM
      (fun s i => matchLoop inpArr (close.getD i 0) opens.length true s) (opens, [])).map Prod.snd
  else none

/-! ### The grammar -/

/-- The number that the digits are. -/
def value (ds : List Char) : ℕ := ds.foldl (fun n d => 10 * n + (d.toNat - '0'.toNat)) 0

/-- Only spaces. -/
def Blank (sp : List Char) : Prop := ∀ c ∈ sp, c = ' '

inductive Symbol
  | element
  | elements
  | group
  | groups

/-- `Derives x text sum lines`: the text is an `x`, `sum` is the sum of the numbers in it, and `lines` are
these sums for the groups in it, in the order of their closing braces. -/
inductive Derives : Symbol → List Char → ℕ → List ℕ → Prop
  | number {ds : List Char} : ds ≠ [] → (∀ d ∈ ds, d.isDigit) → Derives .element ds (value ds) []
  | inner {t s ls} : Derives .group t s ls → Derives .element t s ls
  | one {t s ls} : Derives .element t s ls → Derives .elements t s ls
  | more {t s ls sp sp' u s' ls'} : Derives .element t s ls → Blank sp → Blank sp' →
      Derives .elements u s' ls' →
        Derives .elements (t ++ (sp ++ ',' :: (sp' ++ u))) (s + s') (ls ++ ls')
  | empty {sp} : Blank sp → Derives .group ('{' :: (sp ++ ['}'])) 0 [0]
  | group {t s ls sp sp'} : Blank sp → Derives .elements t s ls → Blank sp' →
      Derives .group ('{' :: (sp ++ (t ++ (sp' ++ ['}'])))) s (ls ++ [s])
  | none {sp} : Blank sp → Derives .groups sp 0 []
  | next {t s ls sp u s' ls'} : Blank sp → Derives .group t s ls → Derives .groups u s' ls' →
      Derives .groups (sp ++ (t ++ u)) (s + s') (ls ++ ls')

end OsSemester.Hw1.BraceSums
