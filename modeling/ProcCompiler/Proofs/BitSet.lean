import ProcCompiler.BitSet
import ProcCompiler.Proofs.Outcome
/-!
# Members of a bit set

A number is found in the one bit that stands for it: reading a bit through its mask is reading the
bit, so an insertion adds one member and takes none away.

* `bit_eq_getLsbD`: the test of a bit.
* `has_insert`: the members after an insertion.
* `insert_of_has`: a member can be inserted again.
* `contains_ofList`: the members of a set that was made from a list.
-/
namespace ProcCompiler.BitSet

/-! ## Bits of a word -/

/-- The test of a bit reads it. -/
theorem bit_eq_getLsbD (w : UInt64) {j : Nat} (hj : j < 64) : bit w j = w.toBitVec.getLsbD j := by
  have hne : BitVec.twoPow 64 j ≠ 0#64 := by
    intro h
    have := congrArg (·.getLsbD j) h
    simp [hj] at this
  have hzero : w &&& mask j = 0 ↔ w.toBitVec.getLsbD j = false := by
    rw [← UInt64.toBitVec_inj, UInt64.toBitVec_and, toBitVec_mask hj, BitVec.and_twoPow]
    cases w.toBitVec.getLsbD j
    · simp
    · simpa using hne
  rw [bit, Bool.eq_iff_iff, bne_iff_ne, ne_eq, hzero, Bool.not_eq_false]

theorem bit_or_mask (w : UInt64) {i j : Nat} (hi : i < 64) (hj : j < 64) :
    bit (w ||| mask j) i = (bit w i || decide (i = j)) := by
  rw [bit_eq_getLsbD _ hi, bit_eq_getLsbD _ hi, UInt64.toBitVec_or, BitVec.getLsbD_or,
    toBitVec_mask hj, BitVec.getLsbD_twoPow, decide_eq_true hj, Bool.true_and]
  simp [eq_comm]

/-! ## Insertions -/

theorem getD_grow (words : Array UInt64) (i m : Nat) :
    (grow words i).getD m 0 = words.getD m 0 := by
  simp only [grow, Array.getD_eq_getD_getElem?, Array.getElem?_append, Array.getElem?_replicate]
  split
  · rfl
  · split <;> simp [*]

/-- An insertion changes one word. -/
theorem word_insert (s : BitSet) (k i : Nat) :
    (s.insert k).word i = if i = k / 64 then s.word i ||| mask (k % 64) else s.word i := by
  have hlt : k / 64 < (grow s.words (k / 64)).size := by
    rw [grow, Array.size_append, Array.size_replicate]
    omega
  simp only [word, insert, ← getD_grow s.words (k / 64) i]
  rw [Array.getD_eq_getD_getElem?, Array.getD_eq_getD_getElem?, Array.getElem?_modify]
  by_cases h : k / 64 = i
  · subst h
    simp [hlt]
  · simp [h, Ne.symm h]

theorem has_insert (s : BitSet) (k j : Nat) : (s.insert k).has j = (s.has j || decide (j = k)) := by
  have hk : k % 64 < 64 := Nat.mod_lt _ (by decide)
  have hj : j % 64 < 64 := Nat.mod_lt _ (by decide)
  rw [has, word_insert, has]
  split
  · -- the word and the bit together are the number
    rw [bit_or_mask _ hj hk]
    congr 2
    exact propext ⟨fun h => by omega, fun h => by rw [h]⟩
  · rename_i hw
    have hne : j ≠ k := fun h => hw (by rw [h])
    simp [hne]

theorem contains_insert (s : BitSet) (k : Nat) (v : Int) :
    (s.insert k).contains v = (s.contains v || decide ((k : Int) = v)) := by
  cases v with
  | ofNat j =>
    show (s.insert k).has j = _
    rw [has_insert]
    congr 2
    exact propext ⟨fun h => congrArg Int.ofNat h.symm, fun h => (Int.ofNat.inj h).symm⟩
  | negSucc j => rfl

/-- A word that has the bit does not change. -/
theorem or_mask_of_bit {w : UInt64} {j : Nat} (hj : j < 64) (h : bit w j = true) :
    w ||| mask j = w := by
  rw [bit_eq_getLsbD w hj] at h
  rw [← UInt64.toBitVec_inj, UInt64.toBitVec_or, toBitVec_mask hj]
  refine BitVec.eq_of_getLsbD_eq fun i hi => ?_
  rw [BitVec.getLsbD_or, BitVec.getLsbD_twoPow]
  by_cases he : j = i
  · simp [← he, h]
  · simp [he]

/-- The insertion of a member changes nothing, not even the length of the array. -/
theorem insert_of_has {s : BitSet} {k : Nat} (h : s.has k = true) : s.insert k = s := by
  have hlt : k / 64 < s.words.size := by
    by_contra hge
    rw [has, word, Array.getD_eq_getD_getElem?, Array.getElem?_eq_none (Nat.le_of_not_lt hge)] at h
    simp [bit] at h
  have hgrow : grow s.words (k / 64) = s.words := by
    rw [grow, Nat.sub_eq_zero_of_le hlt]
    simp
  have hword : s.words[k / 64] ||| mask (k % 64) = s.words[k / 64] := by
    refine or_mask_of_bit (Nat.mod_lt _ (by decide)) ?_
    rwa [has, word, Array.getD_eq_getD_getElem?, Array.getElem?_eq_getElem hlt] at h
  have hwords : s.words.modify (k / 64) (· ||| mask (k % 64)) = s.words := by
    refine Array.ext (Array.size_modify ..) fun i hi hi' => ?_
    rw [Array.getElem_modify]
    split
    · rename_i he
      subst he
      exact hword
    · rfl
  rw [insert, hgrow, hwords]

theorem ofList_concat (ks : List Nat) (k : Nat) : ofList (ks ++ [k]) = (ofList ks).insert k :=
  List.foldl_concat ..

theorem has_ofList (ks : List Nat) (j : Nat) : (ofList ks).has j = decide (j ∈ ks) := by
  refine foldl_inv insert (fun done s => s.has j = decide (j ∈ done)) ks {} ?_ ?_
  · simp [has, word, bit]
  · intro done k rest s _ hs
    rw [has_insert, hs]
    simp

/-- The members of a set that was made from a list are those of the list. -/
theorem contains_ofList {ks : List Nat} {i : Int} :
    (ofList ks).contains i = true ↔ ∃ k ∈ ks, i = (k : Int) := by
  cases i with
  | ofNat j =>
    rw [contains, has_ofList, decide_eq_true_eq]
    exact ⟨fun h => ⟨j, h, rfl⟩, fun ⟨k, hk, he⟩ => Int.ofNat.inj he ▸ hk⟩
  | negSucc j => exact ⟨nofun, nofun⟩

end ProcCompiler.BitSet
