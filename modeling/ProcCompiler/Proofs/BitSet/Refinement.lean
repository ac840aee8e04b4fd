import ProcCompiler.Proofs.BitSet
import Mathlib.Data.Finset.Sort
/-!
# Bit sets as finite sets

A bit set that was made by additions and removals stands for the finite set that the same additions
and removals make from the empty set, and answers every question as that set does. How many words it
has depends on its past; what it answers does not.

* `wordBits_of_ne_zero`: taking the lowest set bit of a word and clearing it goes through the set
  bits in order.
* `visitWord_eq`, `visit_eq`: a visit of the words is a visit of the members in increasing order.
* `Denotes`: the finite set that a bit set stands for; `Denotes.add`, `Denotes.remove`: one edit.
* `equal_iff`: equality of words is equality of members, whatever the number of words.
* `refines_finset`: the answers after any edits.
-/
namespace ProcCompiler.BitSet

/-! ## The bits of a word, one after another -/

/-- The set bits of a word in increasing order. -/
def wordBits (w : UInt64) : List Nat := (List.range 64).filter (bit w)

theorem mem_wordBits {w : UInt64} {j : Nat} : j ∈ wordBits w ↔ j < 64 ∧ bit w j = true := by
  simp [wordBits]

theorem pairwise_wordBits (w : UInt64) : (wordBits w).Pairwise (· < ·) :=
  List.pairwise_lt_range.filter _

theorem wordBits_zero : wordBits 0 = [] := by
  simp [wordBits, bit]

theorem bit_clear (w : UInt64) {i j : Nat} (hi : i < 64) (hj : j < 64) :
    bit (clear w j) i = (bit w i && decide (i ≠ j)) := by
  rw [bit_eq_getLsbD _ hi, bit_eq_getLsbD _ hi, getLsbD_clear w hj]

theorem bit_lowest {w : UInt64} (h : w ≠ 0) : bit w (lowest w) = true := by
  rw [bit_eq_getLsbD _ (lowest_lt h), lowest]
  exact BitVec.getLsbD_true_ctz_of_ne_zero (toBitVec_ne_zero h)

theorem lowest_le {w : UInt64} {j : Nat} (hj : j < 64) (hb : bit w j = true) : lowest w ≤ j := by
  rw [bit_eq_getLsbD _ hj] at hb
  by_contra hlt
  rw [BitVec.getLsbD_false_of_lt_ctz (Nat.lt_of_not_le hlt)] at hb
  cases hb

/-- The lowest set bit comes first, then those of the word without it. -/
theorem wordBits_of_ne_zero {w : UInt64} (h : w ≠ 0) :
    wordBits w = lowest w :: wordBits (clearLowest w) := by
  have hrest : ∀ j, j ∈ wordBits (clearLowest w) ↔ j ∈ wordBits w ∧ j ≠ lowest w := by
    intro j
    rw [mem_wordBits, mem_wordBits, and_assoc]
    refine and_congr_right fun hj => ?_
    rw [clearLowest, bit_clear w hj (lowest_lt h), Bool.and_eq_true, decide_eq_true_eq]
  refine (pairwise_wordBits w).eq_of_mem_iff
    (List.pairwise_cons.mpr ⟨fun j hj => ?_, pairwise_wordBits _⟩) fun j => ?_
  · obtain ⟨hj, hne⟩ := (hrest j).mp hj
    obtain ⟨hlt, hb⟩ := mem_wordBits.mp hj
    exact Nat.lt_of_le_of_ne (lowest_le hlt hb) (Ne.symm hne)
  · rw [List.mem_cons, hrest]
    constructor
    · intro hj
      by_cases he : j = lowest w
      · exact .inl he
      · exact .inr ⟨hj, he⟩
    · rintro (rfl | hj)
      · exact mem_wordBits.mpr ⟨lowest_lt h, bit_lowest h⟩
      · exact hj.1

theorem cpopNatRec_eq_add_length (x : BitVec 64) (n acc : Nat) :
    x.cpopNatRec n acc = acc + ((List.range n).filter x.getLsbD).length := by
  induction n generalizing acc with
  | zero => rfl
  | succ n ih =>
    rw [BitVec.cpopNatRec_succ, ih, List.range_succ, List.filter_append, List.length_append,
      List.filter_singleton]
    cases x.getLsbD n
    · simp
    · simp [Nat.add_assoc, Nat.add_comm]

theorem popCount_eq (w : UInt64) : popCount w = (wordBits w).length := by
  rw [popCount, BitVec.toNat_cpop, cpopNatRec_eq_add_length, Nat.zero_add, wordBits]
  congr 1
  exact List.filter_congr fun j hj => (bit_eq_getLsbD w (List.mem_range.mp hj)).symm

/-! ## Visits -/

section

variable {σ : Type} {f : σ → Nat → σ × Bool}

/-- Visits numbers in the order of a list. The state, and whether to go on. -/
def visitList (f : σ → Nat → σ × Bool) : σ → List Nat → σ × Bool
  | acc, [] => (acc, true)
  | acc, k :: ks => if (f acc k).2 then visitList f (f acc k).1 ks else f acc k

theorem visitList_append (ks ls : List Nat) (acc : σ) : visitList f acc (ks ++ ls) =
    if (visitList f acc ks).2 then visitList f (visitList f acc ks).1 ls
      else visitList f acc ks := by
  induction ks generalizing acc with
  | nil => rfl
  | cons k ks ih =>
    simp only [List.cons_append, visitList]
    split
    · exact ih _
    · rfl

/-- A visit of a word is a visit of its set bits. -/
theorem visitWord_eq (i : Nat) (w : UInt64) (acc : σ) :
    visitWord f i w acc = visitList f acc ((wordBits w).map (64 * i + ·)) := by
  fun_induction visitWord f i w acc with
  | case1 acc => rw [wordBits_zero]; rfl
  | case2 w acc hw acc' hf ih => rw [wordBits_of_ne_zero hw, List.map_cons, visitList, hf, ih]; rfl
  | case3 w acc hw acc' hf => rw [wordBits_of_ne_zero hw, List.map_cons, visitList, hf]; rfl

/-- The members of the words from number `i` on. -/
def wordsFrom : Nat → List UInt64 → List Nat
  | _, [] => []
  | i, w :: ws => (wordBits w).map (64 * i + ·) ++ wordsFrom (i + 1) ws

theorem visitWords_eq (i : Nat) (ws : List UInt64) (acc : σ) :
    visitWords f i ws acc = (visitList f acc (wordsFrom i ws)).1 := by
  induction ws generalizing i acc with
  | nil => rfl
  | cons w ws ih =>
    rw [visitWords, wordsFrom, visitList_append, ← visitWord_eq]
    split
    all_goals rename_i hw; rw [hw]
    · exact ih _ _
    · rfl

/-- A visit that never stops goes through the whole list. -/
theorem visitList_push (ks : List Nat) (acc : Array Nat) :
    visitList (fun ks k => (ks.push k, true)) acc ks = (acc ++ ks.toArray, true) := by
  induction ks generalizing acc with
  | nil => simp [visitList]
  | cons k ks ih => simp [visitList, ih]

theorem toList_eq (s : BitSet) : s.toList = wordsFrom 0 s.words.toList := by
  rw [toList, visit, visitWords_eq, visitList_push]
  simp

theorem visit_eq (s : BitSet) (start : σ) : s.visit f start = (visitList f start s.toList).1 := by
  rw [toList_eq, visit, visitWords_eq]

/-- The state after some visits. -/
def stateAfter (f : σ → Nat → σ × Bool) (start : σ) (seen : List Nat) : σ :=
  seen.foldl (fun acc k => (f acc k).1) start

/-- Of the numbers `ks`, a visit sees `seen`: the first ones, up to the first after which `f` says
stop. -/
structure Sees (f : σ → Nat → σ × Bool) (start : σ) (ks seen : List Nat) : Prop where
  initial : seen <+: ks
  goesOn : ∀ before k after, seen = before ++ k :: after → after ≠ [] →
    (f (stateAfter f start before) k).2 = true
  stops : seen ≠ ks → ∃ before k, seen = before ++ [k] ∧ (f (stateAfter f start before) k).2 = false

theorem visitList_sees (ks : List Nat) (start : σ) :
    ∃ seen, Sees f start ks seen ∧ (visitList f start ks).1 = stateAfter f start seen := by
  induction ks generalizing start with
  | nil => exact ⟨[], ⟨List.prefix_rfl, by simp, by simp⟩, rfl⟩
  | cons k ks ih =>
    rw [visitList]
    split
    · rename_i hgo
      obtain ⟨seen, hs, hout⟩ := ih (f start k).1
      refine ⟨k :: seen, ⟨List.prefix_cons_inj k |>.mpr hs.initial, fun before j after he hne => ?_,
        fun hne => ?_⟩, hout⟩
      · cases before with
        | nil => cases he; exact hgo
        | cons b before => cases he; exact hs.goesOn before j after rfl hne
      · obtain ⟨before, j, rfl, hj⟩ := hs.stops fun he => hne (by rw [he])
        exact ⟨k :: before, j, rfl, hj⟩
    · rename_i hstop
      refine ⟨[k], ⟨⟨ks, rfl⟩, fun before j after he hne => ?_, fun _ => ⟨[], k, rfl, ?_⟩⟩, rfl⟩
      · cases before with
        | nil => cases he; exact absurd rfl hne
        | cons b before => simp at he
      · simpa [stateAfter] using hstop

end

/-! ## Members in order -/

theorem mem_wordsFrom {i k : Nat} {ws : List UInt64} :
    k ∈ wordsFrom i ws ↔ 64 * i ≤ k ∧ bit (ws.getD (k / 64 - i) 0) (k % 64) = true := by
  induction ws generalizing i with
  | nil => simp [wordsFrom, bit]
  | cons w ws ih =>
    rw [wordsFrom, List.mem_append, ih, List.mem_map]
    by_cases hk : k / 64 = i
    · have hsub : k / 64 - i = 0 := by omega
      rw [hsub, List.getD_cons_zero]
      constructor
      · rintro (⟨j, hj, rfl⟩ | ⟨hle, -⟩)
        · obtain ⟨hlt, hb⟩ := mem_wordBits.mp hj
          exact ⟨by omega, by rwa [show (64 * i + j) % 64 = j by omega]⟩
        · omega
      · rintro ⟨hle, hb⟩
        exact .inl ⟨k % 64, mem_wordBits.mpr ⟨Nat.mod_lt _ (by decide), hb⟩, by omega⟩
    · constructor
      · rintro (⟨j, hj, rfl⟩ | ⟨hle, hb⟩)
        · have := (mem_wordBits.mp hj).1
          omega
        · rw [show k / 64 - i = (k / 64 - (i + 1)) + 1 by omega, List.getD_cons_succ]
          exact ⟨by omega, hb⟩
      · rintro ⟨hle, hb⟩
        rw [show k / 64 - i = (k / 64 - (i + 1)) + 1 by omega, List.getD_cons_succ] at hb
        exact .inr ⟨by omega, hb⟩

theorem pairwise_wordsFrom (i : Nat) (ws : List UInt64) : (wordsFrom i ws).Pairwise (· < ·) := by
  induction ws generalizing i with
  | nil => exact .nil
  | cons w ws ih =>
    rw [wordsFrom, List.pairwise_append]
    refine ⟨?_, ih _, fun a ha b hb => ?_⟩
    · rw [List.pairwise_map]
      exact (pairwise_wordBits w).imp fun h => Nat.add_lt_add_left h _
    · obtain ⟨j, hj, rfl⟩ := List.mem_map.mp ha
      have := (mem_wordBits.mp hj).1
      have := (mem_wordsFrom.mp hb).1
      omega

theorem mem_toList {s : BitSet} {k : Nat} : k ∈ s.toList ↔ s.has k = true := by
  rw [toList_eq, mem_wordsFrom, has, word]
  simp

theorem size_eq (s : BitSet) : s.size = s.toList.length := by
  suffices key : ∀ (ws : List UInt64) (i n : Nat),
      ws.foldl (fun n w => n + popCount w) n = n + (wordsFrom i ws).length by
    rw [size, toList_eq, key _ 0, Nat.zero_add]
  intro ws
  induction ws with
  | nil => intro i n; rfl
  | cons w ws ih =>
    intro i n
    rw [List.foldl_cons, ih (i + 1), popCount_eq, wordsFrom, List.length_append, List.length_map,
      Nat.add_assoc]

/-! ## Equality -/

theorem word_eq_iff {w v : UInt64} : w = v ↔ ∀ j < 64, bit w j = bit v j := by
  refine ⟨fun h _ _ => by rw [h],
    fun h => UInt64.toBitVec_inj.mp (BitVec.eq_of_getLsbD_eq fun j hj => ?_)⟩
  rw [← bit_eq_getLsbD w hj, ← bit_eq_getLsbD v hj]
  exact h j hj

theorem equal_iff {s t : BitSet} : s.equal t = true ↔ ∀ k, s.has k = t.has k := by
  have hwords : s.equal t = true ↔ ∀ i, s.word i = t.word i := by
    simp only [equal, List.all_eq_true, List.mem_range, beq_iff_eq]
    refine ⟨fun h i => ?_, fun h i _ => h i⟩
    by_cases hi : i < max s.words.size t.words.size
    · exact h i hi
    · -- past the end of both, a word is zero
      have hmax := Nat.max_le.mp (Nat.le_of_not_lt hi)
      simp [word, hmax.1, hmax.2]
  rw [hwords]
  constructor
  · intro h k
    rw [has, has, h]
  · intro h i
    refine word_eq_iff.mpr fun j hj => ?_
    have := h (64 * i + j)
    rwa [has, has, show (64 * i + j) / 64 = i by omega, show (64 * i + j) % 64 = j by omega] at this

/-! ## Edits -/

/-- The bit set stands for the finite set. -/
def Denotes (s : BitSet) (S : Finset Nat) : Prop := ∀ k, s.has k = true ↔ k ∈ S

theorem denotes_empty : Denotes {} ∅ := fun k => by
  simp [has, word, bit]

theorem word_erase (s : BitSet) (k i : Nat) :
    (s.erase k).word i = if i = k / 64 then clear (s.word i) (k % 64) else s.word i := by
  have hzero : clear 0 (k % 64) = 0 := by simp [clear]
  simp only [word, erase, Array.getD_eq_getD_getElem?, Array.getElem?_modify]
  by_cases h : i = k / 64
  · subst h
    cases hw : s.words[k / 64]? <;> simp [hzero]
  · simp [h, Ne.symm h]

theorem has_erase (s : BitSet) (k j : Nat) : (s.erase k).has j = (s.has j && decide (j ≠ k)) := by
  have hk : k % 64 < 64 := Nat.mod_lt _ (by decide)
  have hj : j % 64 < 64 := Nat.mod_lt _ (by decide)
  rw [has, word_erase, has]
  split
  · rw [bit_clear _ hj hk]
    congr 2
    exact propext ⟨fun h he => h (by rw [he]), fun h he => h (by omega)⟩
  · rename_i hw
    have hne : j ≠ k := fun h => hw (by rw [h])
    simp [hne]

namespace Denotes

variable {s t : BitSet} {S T : Finset Nat} (h : s.Denotes S)

include h

/-- An addition: it tells whether the number is new. -/
theorem add (k : Nat) : ∃ t, s.add? k = some (decide (k ∉ S), t) ∧ t.Denotes (S ∪ {k}) := by
  refine ⟨s.insert k, ?_, fun j => ?_⟩
  · have hnew : (!s.has k) = decide (k ∉ S) := by
      rw [Bool.eq_iff_iff, Bool.not_eq_true', ← Bool.not_eq_true, h k, decide_eq_true_eq]
    rw [← hnew]
    rfl
  · rw [has_insert, Bool.or_eq_true, h j, decide_eq_true_eq, Finset.mem_union, Finset.mem_singleton]

theorem remove (k : Nat) : ∃ t, s.remove? k = some t ∧ t.Denotes (S.erase k) := by
  refine ⟨s.erase k, rfl, fun j => ?_⟩
  rw [has_erase, Bool.and_eq_true, h j, decide_eq_true_eq, Finset.mem_erase, and_comm]

theorem contains_iff (i : Int) : s.contains i = true ↔ ∃ k ∈ S, i = (k : Int) := by
  cases i with
  | ofNat j =>
    rw [contains, h j]
    constructor
    · intro hj
      exact ⟨j, hj, rfl⟩
    · rintro ⟨k, hk, he⟩
      exact Int.ofNat.inj he ▸ hk
  | negSucc j =>
    constructor
    · intro hc
      cases hc
    · rintro ⟨k, -, he⟩
      cases he

theorem toList_eq_sort : s.toList = S.sort := by
  refine (toList_eq s ▸ pairwise_wordsFrom 0 _).eq_of_mem_iff S.sortedLT_sort.pairwise fun k => ?_
  rw [mem_toList, h k, Finset.mem_sort]

theorem size_eq_card : s.size = S.card := by
  rw [size_eq, h.toList_eq_sort, Finset.length_sort]

theorem equal_iff_eq (h' : t.Denotes T) : s.equal t = true ↔ S = T := by
  rw [equal_iff]
  constructor
  · intro he
    ext k
    rw [← h k, ← h' k, he]
  · rintro rfl k
    rw [Bool.eq_iff_iff, h k, h' k]

end Denotes

/-- A call that changes a set. -/
inductive Edit where
  | add (k : Nat)
  | remove (k : Nat)

namespace Edit

/-- The call on a bit set, `none` if it breaks off. -/
def run? (s : BitSet) : Edit → Option BitSet
  | add k => (s.add? k).map Prod.snd
  | remove k => s.remove? k

/-- What the call means for a finite set. -/
def onSet (S : Finset Nat) : Edit → Finset Nat
  | add k => S ∪ {k}
  | remove k => S.erase k

/-- The bit set after some calls on the empty one. -/
def result? (edits : List Edit) : Option BitSet := edits.foldlM run? {}

/-- The finite set after some calls on the empty one. -/
def members (edits : List Edit) : Finset Nat := edits.foldl onSet ∅

/-- One call. -/
theorem denotes_run {s : BitSet} {S : Finset Nat} (h : s.Denotes S) (e : Edit) :
    ∃ t, run? s e = some t ∧ t.Denotes (onSet S e) := by
  cases e with
  | add k =>
    obtain ⟨t, ht, hd⟩ := h.add k
    exact ⟨t, by rw [run?, ht]; rfl, hd⟩
  | remove k => exact h.remove k

/-- All calls. -/
theorem denotes_result (edits : List Edit) :
    ∃ s, result? edits = some s ∧ s.Denotes (members edits) := by
  suffices key : ∀ (s : BitSet) (S : Finset Nat), s.Denotes S →
      ∃ t, edits.foldlM run? s = some t ∧
        t.Denotes (edits.foldl onSet S) from key {} ∅ denotes_empty
  induction edits with
  | nil => exact fun s S h => ⟨s, rfl, h⟩
  | cons e edits ih =>
    intro s S h
    obtain ⟨t, ht, hd⟩ := denotes_run h e
    obtain ⟨u, hu, hd'⟩ := ih t _ hd
    exact ⟨u, by rw [List.foldlM_cons, ht]; exact hu, hd'⟩

end Edit

/-- The bit set answers every question as the finite set does. -/
structure Answers (s : BitSet) (S : Finset Nat) : Prop where
  /-- An addition tells whether the number is new. -/
  add : ∀ k : Nat, ∃ t, s.add? k = some (decide (k ∉ S), t)
  /-- No negative number is a member. -/
  contains : ∀ i : Int, s.contains i = true ↔ ∃ k ∈ S, i = (k : Int)
  size : s.size = S.card
  toList : s.toList = S.sort
  /-- A visit sees the members in increasing order, up to the first one after which `f` says
  stop. -/
  visit : ∀ {σ : Type} (f : σ → Nat → σ × Bool) (start : σ),
    ∃ seen, Sees f start S.sort seen ∧ s.visit f start = stateAfter f start seen

theorem Denotes.answers {s : BitSet} {S : Finset Nat} (h : s.Denotes S) : s.Answers S where
  add k := by
    obtain ⟨t, ht, -⟩ := h.add k
    exact ⟨t, ht⟩
  contains := h.contains_iff
  size := h.size_eq_card
  toList := h.toList_eq_sort
  visit f start := by
    rw [visit_eq, h.toList_eq_sort]
    exact visitList_sees S.sort start

/-- Bit sets that are made by edits answer as the finite sets that the edits make, and two of them
are equal if and only if the finite sets are. -/
theorem refines_finset (edits edits' : List Edit) :
    ∃ s t, Edit.result? edits = some s ∧ Edit.result? edits' = some t ∧
      s.Answers (Edit.members edits) ∧ t.Answers (Edit.members edits') ∧
      (s.equal t = true ↔ Edit.members edits = Edit.members edits') := by
  obtain ⟨s, hs, hd⟩ := Edit.denotes_result edits
  obtain ⟨t, ht, hd'⟩ := Edit.denotes_result edits'
  exact ⟨s, t, hs, ht, hd.answers, hd'.answers, hd.equal_iff_eq hd'⟩

end ProcCompiler.BitSet
