import ProcCompiler.Wire
/-!
# Bit sets

Sets of natural numbers as an array of 64-bit words: `k` is bit `k % 64` of word `k / 64`. The array
grows when a number is added and never shrinks, so two arrays may stand for one set. An array
without words is the set to which nothing was ever added. The members are visited word by word: the
lowest set bit of a word is taken and cleared until none is left.

* `clearLowest_lt`: a word without its lowest set bit is smaller, so the visit of a word ends.
-/
namespace ProcCompiler

structure BitSet where
  words : Array UInt64 := #[]
deriving DecidableEq

namespace BitSet

/-- The word with bit `j` alone. -/
def mask (j : Nat) : UInt64 := 1 <<< UInt64.ofNat j

/-- The word at `i`, zero past the end. -/
def word (s : BitSet) (i : Nat) : UInt64 := s.words.getD i 0

/-- Is bit `j` of the word set? -/
def bit (w : UInt64) (j : Nat) : Bool := w &&& mask j != 0

/-- Membership of a natural number. -/
def has (s : BitSet) (k : Nat) : Bool := bit (s.word (k / 64)) (k % 64)

/-- The array with zero words added until it has a word at `i`. -/
def grow (words : Array UInt64) (i : Nat) : Array UInt64 :=
  words ++ Array.replicate (i + 1 - words.size) 0

def insert (s : BitSet) (k : Nat) : BitSet :=
  { words := (grow s.words (k / 64)).modify (k / 64) (· ||| mask (k % 64)) }

/-- The word without bit `j`. -/
def clear (w : UInt64) (j : Nat) : UInt64 := w &&& ~~~mask j

def erase (s : BitSet) (k : Nat) : BitSet := { words := s.words.modify (k / 64) (clear · (k % 64)) }

/-- Adds `k` and tells whether it is new. A negative number has no place in a set. -/
def add? (s : BitSet) : Int → Option (Bool × BitSet)
  | .ofNat k => some (!s.has k, s.insert k)
  | .negSucc _ => none

/-- Removes `k`. A negative number has no place in a set. -/
def remove? (s : BitSet) : Int → Option BitSet
  | .ofNat k => some (s.erase k)
  | .negSucc _ => none

/-- Membership; a negative number is in no set. -/
def contains (s : BitSet) : Int → Bool
  | .ofNat k => s.has k
  | .negSucc _ => false

def ofList (ks : List Nat) : BitSet := ks.foldl insert {}

/-! ## Counting and visiting -/

/-- The number of set bits of a word. -/
def popCount (w : UInt64) : Nat := w.toBitVec.cpop.toNat

/-- The number of members. -/
def size (s : BitSet) : Nat := s.words.toList.foldl (fun n w => n + popCount w) 0

/-- The lowest set bit of a word other than zero. -/
def lowest (w : UInt64) : Nat := w.toBitVec.ctz.toNat

/-- The word without its lowest set bit. -/
def clearLowest (w : UInt64) : UInt64 := clear w (lowest w)

theorem toBitVec_ne_zero {w : UInt64} (h : w ≠ 0) : w.toBitVec ≠ 0#64 := fun he =>
  h (UInt64.toBitVec_inj.mp he)

theorem lowest_lt {w : UInt64} (h : w ≠ 0) : lowest w < 64 := by
  simpa [lowest, BitVec.lt_def] using BitVec.ctz_lt_iff_ne_zero.mpr (toBitVec_ne_zero h)

theorem toBitVec_mask {j : Nat} (hj : j < 64) : (mask j).toBitVec = BitVec.twoPow 64 j := by
  have hmod : (UInt64.ofNat j).toBitVec % 64 = BitVec.ofNat 64 j := by
    apply BitVec.eq_of_toNat_eq
    rw [UInt64.toBitVec_ofNat', BitVec.toNat_umod, BitVec.toNat_ofNat,
      Nat.mod_eq_of_lt (show j < _ by omega)]
    exact Nat.mod_eq_of_lt hj
  rw [mask, UInt64.toBitVec_shiftLeft, hmod, BitVec.twoPow, BitVec.shiftLeft_eq',
    BitVec.toNat_ofNat, Nat.mod_eq_of_lt (by omega)]
  rfl

theorem getLsbD_clear (w : UInt64) {j : Nat} (hj : j < 64) (i : Nat) :
    (clear w j).toBitVec.getLsbD i = (w.toBitVec.getLsbD i && decide (i ≠ j)) := by
  rw [clear, UInt64.toBitVec_and, UInt64.toBitVec_not, toBitVec_mask hj, BitVec.getLsbD_and,
    BitVec.getLsbD_not, BitVec.getLsbD_twoPow]
  by_cases hi : i < 64
  · by_cases he : i = j <;> simp [*, eq_comm]
  · simp [BitVec.getLsbD_of_ge _ _ (Nat.le_of_not_lt hi)]

theorem clearLowest_lt {w : UInt64} (h : w ≠ 0) : (clearLowest w).toNat < w.toNat := by
  refine Nat.lt_of_le_of_ne ?_ fun he => ?_
  · rw [clearLowest, clear, UInt64.toNat_and]
    exact Nat.and_le_left
  · -- the two words differ in the bit that was cleared
    have hbit := getLsbD_clear w (lowest_lt h) (lowest w)
    rw [show clear w (lowest w) = w from UInt64.toNat_inj.mp he, lowest,
      BitVec.getLsbD_true_ctz_of_ne_zero (toBitVec_ne_zero h)] at hbit
    simp at hbit

/-- Visits the set bits of word number `i`, lowest first, threading a state, up to the first one
after which `f` says stop. The state, and whether to go on. -/
def visitWord {σ : Type} (f : σ → Nat → σ × Bool) (i : Nat) (w : UInt64) (acc : σ) : σ × Bool :=
  if _h : w = 0 then (acc, true)
  else
    match f acc (64 * i + lowest w) with
    | (acc, true) => visitWord f i (clearLowest w) acc
    | (acc, false) => (acc, false)
termination_by w.toNat
decreasing_by exact clearLowest_lt ‹_›

/-- Visits the words from number `i` on. -/
def visitWords {σ : Type} (f : σ → Nat → σ × Bool) : Nat → List UInt64 → σ → σ
  | _, [], acc => acc
  | i, w :: ws, acc =>
    match visitWord f i w acc with
    | (acc, true) => visitWords f (i + 1) ws acc
    | (acc, false) => acc

/-- Visits the members in increasing order until `f` says stop. -/
def visit {σ : Type} (s : BitSet) (f : σ → Nat → σ × Bool) (start : σ) : σ :=
  visitWords f 0 s.words.toList start

/-- The members in increasing order. -/
def toList (s : BitSet) : List Nat := (s.visit (fun ks k => (ks.push k, true)) #[]).toList

/-- Do the two stand for one set? Missing words count as zero. -/
def equal (s t : BitSet) : Bool :=
  (List.range (max s.words.size t.words.size)).all fun i => s.word i == t.word i

/-- The set on the wire. -/
def wire (s : BitSet) : List UInt8 :=
  if s.words.isEmpty then Wire.null else Wire.openList (s.toList.map fun k : Nat => Wire.int k)

end BitSet

end ProcCompiler
