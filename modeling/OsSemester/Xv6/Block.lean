import OsSemester.Lib.Bytes
import OsSemester.Xv6.Log

/-!
# Blocks, and the header of the log

A disk block has `BSIZE` bytes.  `struct logheader` lies at the start of the block `log.start`: the
number of logged blocks and the numbers of these blocks, each of them a word.
-/

namespace OsSemester.Xv6

/-- The content of a disk block. -/
abbrev Block := Bytes BSIZE

namespace Block

variable {d : Block} {i j w : ℕ} {ws : List ℕ}

/-- The `i`-th word of a block. -/
def word (d : Block) (i : ℕ) : ℕ := d.field (4 * i) 4

def setWord (d : Block) (i w : ℕ) : Block := d.setField (4 * i) 4 w

/-- The words of a list from the `i`-th word on. -/
def setWords (d : Block) (i : ℕ) : List ℕ → Block
  | [] => d
  | w :: ws => (d.setWord i w).setWords (i + 1) ws

theorem word_setWord (hi : i < BSIZE / 4) (hw : w < 2 ^ 32) : (d.setWord i w).word i = w := by
  simp only [BSIZE] at hi
  exact Bytes.field_setField (by simp only [BSIZE]; omega) (by omega)

theorem word_setWord_of_ne (hij : j ≠ i) (hj : j < BSIZE / 4) : (d.setWord i w).word j = d.word j := by
  simp only [BSIZE] at hj
  exact Bytes.field_setField_of_disjoint (by omega) (by simp only [BSIZE]; omega)

theorem word_setWords_of_lt (hj : j < i) (hjN : j < BSIZE / 4) :
    (d.setWords i ws).word j = d.word j := by
  induction ws generalizing d i with
  | nil => rfl
  | cons w ws ih => rw [setWords, ih (by omega), word_setWord_of_ne (by omega) hjN]

theorem word_setWords (hlen : i + ws.length ≤ BSIZE / 4) (hws : ∀ w ∈ ws, w < 2 ^ 32)
    (hj : j < ws.length) : (d.setWords i ws).word (i + j) = ws[j] := by
  induction ws generalizing d i j with
  | nil => exact absurd hj (Nat.not_lt_zero _)
  | cons w ws ih =>
    rw [List.length_cons] at hlen hj
    cases j with
    | zero =>
      show ((d.setWord i w).setWords (i + 1) ws).word i = w
      rw [word_setWords_of_lt (by omega) (by omega),
        word_setWord (by omega) (hws w (List.mem_cons_self ..))]
    | succ j =>
      have := ih (d := d.setWord i w) (i := i + 1) (j := j) (by omega)
        (fun v hv => hws v (.tail _ hv)) (by omega)
      rw [setWords, List.getElem_cons_succ, ← this]
      congr 1
      omega

/-- `lh->n` and `lh->block`, as `read_head` reads them. -/
def header (d : Block) : List Blockno := (List.range (d.word 0)).map fun i => d.word (i + 1)

/-- `hb->n` and `hb->block`, as `write_head` writes them. -/
def setHeader (d : Block) (block : List Blockno) : Block :=
  (d.setWord 0 block.length).setWords 1 block

/-- What `write_head` writes is what `read_head` reads. -/
theorem header_setHeader {block : List Blockno} (hlen : block.length ≤ LOGSIZE)
    (hblock : ∀ n ∈ block, n < 2 ^ 32) : (d.setHeader block).header = block := by
  simp only [LOGSIZE, MAXOPBLOCKS] at hlen
  have h0 : (d.setHeader block).word 0 = block.length := by
    rw [setHeader, word_setWords_of_lt Nat.one_pos (by decide), word_setWord (by decide) (by omega)]
  rw [header, h0]
  refine List.ext_getElem (by simp) fun i h1 h2 => ?_
  rw [List.getElem_map, List.getElem_range, setHeader, Nat.add_comm i 1]
  exact word_setWords (by simp only [BSIZE]; omega) hblock h2

end Block

end OsSemester.Xv6
