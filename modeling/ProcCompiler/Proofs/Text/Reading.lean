import ProcCompiler.Proofs.Syntax.RoundTrip
/-!
# Texts that can be read back

Two printed values are compared where each is followed by some text. If what follows does not
continue what was printed, equal texts were printed from the same value, and go on in the same way.
So the parts of a longer text are told apart one after another, and no reader has to be written for
it.

* `Readable`: the text of a value, whatever follows, gives the value away.
* `readable_nat`, `readable_int`, `readable_word`: numbers and words.
* `readable_numbered`: the items of a list one after another, each with its place.
* `readable_separated`: the items of a list with a separator between them.
-/
namespace ProcCompiler

/-- The text starts with no letter, digit or underscore, so it does not continue a word or a
number. -/
def Apart (rest : List Char) : Prop := ∀ c ∈ rest.head?, (c.isAlphanum || c == '_') = false

/-- The mark ends a word or a number. -/
def isMark (mark : String) : Bool := mark.toList.head?.any fun c => !(c.isAlphanum || c == '_')

theorem apart_mark {mark : String} (h : isMark mark = true) (rest : List Char) :
    Apart (mark.toList ++ rest) := by
  unfold isMark at h
  cases hm : mark.toList with
  | nil => simp [hm] at h
  | cons c cs =>
    rw [hm] at h
    intro d hd
    cases hd
    simpa using h

/-- Texts that agree were printed from the same value and go on in the same way. -/
def Readable {α : Type} (print : α → String) (ok : α → Prop) (stop : List Char → Prop) : Prop :=
  ∀ ⦃a b : α⦄ ⦃rest rest' : List Char⦄, ok a → ok b → stop rest → stop rest' →
    (print a).toList ++ rest = (print b).toList ++ rest' → a = b ∧ rest = rest'

/-- A value up to a fixed mark. -/
theorem Readable.upTo {α : Type} {print : α → String} {ok : α → Prop} {stop : List Char → Prop}
    (h : Readable print ok stop) {mark : String} (hmark : ∀ rest, stop (mark.toList ++ rest))
    {a b : α} {rest rest' : List Char} (ha : ok a) (hb : ok b)
    (he : (print a).toList ++ (mark.toList ++ rest) = (print b).toList ++ (mark.toList ++ rest')) :
    a = b ∧ rest = rest' := by
  obtain ⟨hab, hr⟩ := h ha hb (hmark rest) (hmark rest') he
  exact ⟨hab, List.append_cancel_left hr⟩

/-! ## Numbers and words -/

/-- Letters, digits and underscores end where something else follows. -/
theorem run_unique {xs ys rest rest' : List Char} (hx : ∀ c ∈ xs, (c.isAlphanum || c == '_') = true)
    (hy : ∀ c ∈ ys, (c.isAlphanum || c == '_') = true) (hrest : Apart rest) (hrest' : Apart rest')
    (h : xs ++ rest = ys ++ rest') : xs = ys ∧ rest = rest' := by
  obtain rfl : xs = ys := by rw [← takeWhile_run hx hrest, h, takeWhile_run hy hrest']
  exact ⟨rfl, List.append_cancel_left h⟩

theorem toList_toString (n : Nat) : (toString n).toList = Nat.toDigits 10 n := by
  rw [Nat.toString_eq_ofList_toDigits, String.toList_ofList]

theorem isDigit_of_mem_toString {n : Nat} {c : Char} (h : c ∈ (toString n).toList) :
    c.isDigit = true := by
  rw [toList_toString] at h
  exact Nat.isDigit_of_mem_toDigits (by decide) (by decide) h

theorem readable_nat : Readable (toString : Nat → String) (fun _ => True) Apart := by
  intro m n rest rest' _ _ hrest hrest' h
  have hdigits : ∀ k : Nat, ∀ c ∈ (toString k).toList, (c.isAlphanum || c == '_') = true :=
    fun k c hc => isAlphanum_of_isDigit (isDigit_of_mem_toString hc)
  obtain ⟨hmn, hr⟩ := run_unique (hdigits m) (hdigits n) hrest hrest' h
  rw [toList_toString, toList_toString] at hmn
  refine ⟨?_, hr⟩
  rw [← Nat.ofDigitChars_ten_toDigits (n := m), hmn, Nat.ofDigitChars_ten_toDigits]

/-- A number without a sign does not start like one with a sign. -/
theorem toString_append_ne {n : Nat} {rest rest' : List Char} :
    (toString n).toList ++ rest ≠ '-' :: rest' := by
  intro h
  cases hn : (toString n).toList with
  | nil =>
    rw [toList_toString] at hn
    exact Nat.toDigits_ne_nil hn
  | cons c cs =>
    rw [hn] at h
    have hc := isDigit_of_mem_toString (hn ▸ List.mem_cons_self : c ∈ (toString n).toList)
    rw [List.cons_append, List.cons.injEq] at h
    rw [h.1] at hc
    exact absurd hc (by decide)

theorem toList_toString_negSucc (n : Nat) :
    (toString (Int.negSucc n)).toList = '-' :: (toString (n + 1)).toList := by
  rw [show toString (Int.negSucc n) = "-" ++ toString (n + 1) from rfl, String.toList_append]
  rfl

theorem readable_int : Readable (toString : Int → String) (fun _ => True) Apart := by
  intro x y rest rest' _ _ hrest hrest' h
  cases x with
  | ofNat m =>
    cases y with
    | ofNat n =>
      obtain ⟨rfl, hr⟩ := readable_nat trivial trivial hrest hrest' h
      exact ⟨rfl, hr⟩
    | negSucc n =>
      rw [toList_toString_negSucc] at h
      exact absurd h toString_append_ne
  | negSucc m =>
    rw [toList_toString_negSucc] at h
    cases y with
    | ofNat n => exact absurd h.symm toString_append_ne
    | negSucc n =>
      rw [toList_toString_negSucc, List.cons_append, List.cons_append, List.cons.injEq] at h
      obtain ⟨hmn, hr⟩ := readable_nat trivial trivial hrest hrest' h.2
      exact ⟨by rw [Nat.add_right_cancel hmn], hr⟩

theorem wordChar_of_mem_identifier {s : String} (h : isIdentifier s = true) :
    ∀ c ∈ s.toList, (c.isAlphanum || c == '_') = true := by
  unfold isIdentifier at h
  split at h
  · cases h
  · rename_i c cs hs
    rw [hs]
    rw [Bool.and_eq_true, List.all_eq_true] at h
    refine List.forall_mem_cons.mpr ⟨?_, h.2⟩
    rcases Bool.or_eq_true_iff.mp h.1 with hc | hc <;> simp [Char.isAlphanum, hc]

theorem readable_word : Readable id (fun s => isIdentifier s = true) Apart := by
  intro s t rest rest' hs ht hrest hrest' h
  obtain ⟨hst, hr⟩ :=
    run_unique (wordChar_of_mem_identifier hs) (wordChar_of_mem_identifier ht) hrest hrest' h
  exact ⟨String.toList_inj.mp hst, hr⟩

/-! ## Lists -/

section

variable {α : Type} {ok : α → Prop} {stop finish : List Char → Prop}

/-- The items one after another, numbered from `k`. What follows the last one cannot be taken for an
item. -/
theorem readable_numbered {print : Nat → α → String} (hitem : ∀ i, Readable (print i) ok stop)
    (hfinish : ∀ rest, finish rest → stop rest)
    (hnext : ∀ i a rest, ok a → stop ((print (i + 1) a).toList ++ rest))
    (hends : ∀ i a rest, ok a → ¬ finish ((print i a).toList ++ rest)) (k : Nat) :
    Readable (fun as : List α => String.join ((as.zipIdx k).map fun x => print x.2 x.1))
      (∀ a ∈ ·, ok a) finish := by
  intro as
  induction as generalizing k with
  | nil =>
    intro bs rest rest' _ hb hrest _ h
    cases bs with
    | nil => exact ⟨rfl, h⟩
    | cons b bs =>
      simp only [List.zipIdx_cons, List.map_cons, String.toList_join, List.flatMap_cons,
        List.append_assoc] at h
      rw [show rest = _ from h] at hrest
      exact absurd hrest (hends k b _ (hb b (by simp)))
  | cons a as ih =>
    intro bs rest rest' ha hb hrest hrest' h
    cases bs with
    | nil =>
      simp only [List.zipIdx_cons, List.map_cons, String.toList_join, List.flatMap_cons,
        List.append_assoc] at h
      rw [← show _ = rest' from h] at hrest'
      exact absurd hrest' (hends k a _ (ha a (by simp)))
    | cons b bs =>
      -- an item is followed by the next one, or by what follows the list
      have hstop : ∀ {cs : List α} {r : List Char}, (∀ c ∈ cs, ok c) → finish r →
          stop ((String.join ((cs.zipIdx (k + 1)).map fun x => print x.2 x.1)).toList ++ r) := by
        intro cs r hcs hr
        cases cs with
        | nil => exact hfinish r hr
        | cons c cs =>
          simp only [List.zipIdx_cons, List.map_cons, String.toList_join, List.flatMap_cons,
            List.append_assoc]
          exact hnext k c _ (hcs c (by simp))
      rw [List.forall_mem_cons] at ha hb
      simp only [List.zipIdx_cons, List.map_cons, String.toList_join, List.flatMap_cons,
        List.append_assoc] at h
      simp only [← String.toList_join] at h
      obtain ⟨rfl, hmore⟩ := hitem k ha.1 hb.1 (hstop ha.2 hrest) (hstop hb.2 hrest') h
      obtain ⟨rfl, hend⟩ := ih (k + 1) ha.2 hb.2 hrest hrest' hmore
      exact ⟨rfl, hend⟩

theorem toList_intercalate_cons (print : α → String) (sep : String) (a : α) (as : List α) :
    (sep.intercalate ((a :: as).map print)).toList =
      (print a).toList ++ (String.join (as.map fun b => sep ++ print b)).toList := by
  rw [String.toList_intercalate, List.map_cons, List.map_cons, intercalate_cons, String.toList_join]
  simp [List.flatMap_map]

/-- The items with a separator between them. -/
theorem readable_separated {print : α → String} {sep : String} (hitem : Readable print ok stop)
    (hfinish : ∀ rest, finish rest → stop rest)
    (hsep : ∀ rest, stop (sep.toList ++ rest) ∧ ¬ finish (sep.toList ++ rest))
    (hends : ∀ a rest, ok a → ¬ finish ((print a).toList ++ rest)) :
    Readable (fun as : List α => sep.intercalate (as.map print)) (∀ a ∈ ·, ok a) finish := by
  -- each item but the first has the separator in front
  have hafter : Readable (fun a => sep ++ print a) ok stop := by
    intro a b rest rest' ha hb hr hr' h
    rw [String.toList_append, String.toList_append, List.append_assoc, List.append_assoc] at h
    exact hitem ha hb hr hr' (List.append_cancel_left h)
  have hmore : Readable (fun as : List α => String.join (as.map fun a => sep ++ print a))
      (∀ a ∈ ·, ok a) finish := by
    have hnumbered := readable_numbered (fun _ => hafter) hfinish
      (fun _ a rest _ => by rw [String.toList_append, List.append_assoc]; exact (hsep _).1)
      (fun _ a rest _ => by rw [String.toList_append, List.append_assoc]; exact (hsep _).2) 0
    have hmap : ∀ as : List α, as.map (fun a => sep ++ print a) = as.zipIdx.map fun x =>
        sep ++ print x.1 := by
      intro as
      conv_lhs => rw [← List.zipIdx_map_fst 0 as, List.map_map]
      rfl
    simpa only [hmap] using hnumbered
  have hstop : ∀ {as : List α} {r : List Char}, finish r →
      stop ((String.join (as.map fun a => sep ++ print a)).toList ++ r) := by
    intro as r hr
    cases as with
    | nil => exact hfinish r hr
    | cons a as =>
      simp only [List.map_cons, String.toList_join, List.flatMap_cons, String.toList_append,
        List.append_assoc]
      exact (hsep _).1
  intro as bs rest rest' ha hb hrest hrest' h
  cases as with
  | nil =>
    cases bs with
    | nil => exact ⟨rfl, h⟩
    | cons b bs =>
      rw [toList_intercalate_cons, List.append_assoc] at h
      rw [show rest = _ from h] at hrest
      exact absurd hrest (hends b _ (hb b (by simp)))
  | cons a as =>
    rw [toList_intercalate_cons, List.append_assoc] at h
    cases bs with
    | nil =>
      rw [← show _ = rest' from h] at hrest'
      exact absurd hrest' (hends a _ (ha a (by simp)))
    | cons b bs =>
      rw [toList_intercalate_cons, List.append_assoc] at h
      rw [List.forall_mem_cons] at ha hb
      obtain ⟨rfl, htail⟩ := hitem ha.1 hb.1 (hstop hrest) (hstop hrest') h
      obtain ⟨rfl, hend⟩ := hmore ha.2 hb.2 hrest hrest' htail
      exact ⟨rfl, hend⟩

end

end ProcCompiler
