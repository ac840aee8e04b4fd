import ProcCompiler.Proofs.Lowering.Ready
import ProcCompiler.Proofs.Lowering.Transit
import ProcCompiler.Proofs.Routine.History
/-!
# Routines that can be made

A routine changes through builder calls and through the passes of lowering. Nothing says that these
come in the order in which lowering calls them, or that a pass is given the graph of the routine
itself. `Routine.Made` allows any order and any graph; the needs that a pass is given are needs of
some routine. Whatever is made, a block waits for each variable once.

* `Routine.Made`: a routine that calls and passes lead to.
* `Routine.Made.distinct`: its blocks wait for each variable once.
-/
namespace ProcCompiler

namespace Block

theorem nodup_receive {b : Block} (h : b.params.Nodup) (v : Var) (r : Reg) :
    (b.receive v r).params.Nodup := by
  show (b.fill v r).params.Nodup
  rw [fill_params]
  exact h.erase v

theorem nodup_receiveAll : ∀ (arrivals : List (Var × Reg)) {b : Block}, b.params.Nodup →
    (b.receiveAll arrivals).params.Nodup
  | [], _, h => h
  | (v, r) :: arrivals, _, h => nodup_receiveAll arrivals (nodup_receive h v r)

end Block

namespace Routine

/-- Every block waits for each variable once. -/
def Distinct (f : Routine) : Prop := ∀ b, (f.block b).params.Nodup

namespace Distinct

variable {f f' : Routine}

theorem modifyBlock (h : f.Distinct) (c : BlockId) {change : Block → Block}
    (hchange : ∀ x : Block, x.params.Nodup → (change x).params.Nodup) :
    (f.modifyBlock c change).Distinct := by
  intro b
  by_cases hc : c = b
  · subst hc
    by_cases hlt : c < f.blocks.size
    · rw [block_modifyBlock_self hlt]
      exact hchange _ (h c)
    · rw [block_of_le (by simpa using hlt)]
      exact List.nodup_nil
  · rw [block_modifyBlock_ne hc]
    exact h b

theorem pushBlock (h : f.Distinct) {x : Block} (hx : x.params.Nodup) :
    (f.pushBlock x).Distinct := by
  intro b
  by_cases hb : b = f.blocks.size
  · rw [hb, block_pushBlock_self]
    exact hx
  · rw [block_pushBlock_ne hb]
    exact h b

/-! ## Builder calls -/

theorem perform (h : f.Distinct) (c : BuildCall) : (c.perform f).2.Distinct := by
  intro b
  have hmove := (effect_perform f c).block b
  generalize edit? b (c, (c.perform f).1) = e, (c.perform f).2.block b = x at hmove ⊢
  cases hmove with
  | keep => exact h b
  | edit he => exact he.nodup (h b)

/-! ## Passes -/

theorem addExit (h : f.Distinct) (g : FlowGraph) : (f.addExit g).1.Distinct := by
  intro b
  rcases f.block_addExit_cases g b with (hb | hb) | hb <;> rw [hb]
  · exact h b
  · simpa using h b
  · exact List.nodup_nil

theorem redirect (h : f.Distinct) {jumper old new : BlockId}
    (hr : f.redirect jumper old new = .ok f') :
    f'.Distinct := by
  unfold Routine.redirect at hr
  split at hr
  · split at hr
    · cases hr
      exact h
    · cases hr
  · cases hr
    exact h.modifyBlock _ fun _ hx => hx

theorem shareRegs (h : f.Distinct) (vs : List Var) : (f.shareRegs vs).1.Distinct :=
  foldl_inv (fun f v => f.pushReg { var := v }) (fun _ f => f.Distinct) vs f h fun _ _ _ _ _ h => h

theorem splitJoin {g : FlowGraph} {n : Needs} (hn : ∀ b, (n.of b).Nodup) {t : BlockId}
    {edges edges' : List BlockId} (h : f.Distinct)
    (hs : Routine.splitJoin g n (f, edges) t = .ok (f', edges')) : f'.Distinct := by
  simp only [Routine.splitJoin] at hs
  split at hs
  · cases hs
    exact h
  · obtain ⟨⟨f₁, edges₁⟩, hfold, hs⟩ := ok_of_bind hs
    cases hs
    refine Distinct.modifyBlock ?_ t fun _ hx => Block.nodup_receiveAll _ hx
    refine foldlM_preserves (P := fun s : Routine × List BlockId => s.1.Distinct) ?_ hfold
      (h.shareRegs _)
    rintro ⟨f₂, edges₂⟩ jumper - ⟨f₃, edges₃⟩ h₂ hstep
    obtain ⟨f₄, hr, hstep⟩ := ok_of_bind hstep
    cases hstep
    exact (h₂.pushBlock (hn t)).redirect hr

theorem splitJoins {g : FlowGraph} {n : Needs} (hn : ∀ b, (n.of b).Nodup) {edges : List BlockId}
    (h : f.Distinct) (hs : f.splitJoins g n = .ok (f', edges)) : f'.Distinct :=
  foldlM_preserves (P := fun s : Routine × List BlockId => s.1.Distinct)
    (fun _ _ _ _ h hs => h.splitJoin hn hs) hs h

theorem bindSlot (h : f.Distinct) (slots : List Slot) (missing : List String) (v : Var) :
    (Routine.bindSlot slots (f, missing) v).1.Distinct := by
  simp only [Routine.bindSlot]
  split
  · exact Distinct.modifyBlock (f := f.pushReg _) h entry fun x hx =>
      Block.nodup_receive (b := x.bind v _) hx v _
  · exact h

theorem bindArguments {n : Needs} {slots : List Slot} {e : Option SignatureError} (h : f.Distinct)
    (hb : f.bindArguments n slots = .ok (f', e)) : f'.Distinct := by
  unfold Routine.bindArguments at hb
  split at hb
  · cases hb
  · have hfold :=
      foldl_inv (Routine.bindSlot slots) (fun _ s => s.1.Distinct) (n.of entry) (f, []) h
      fun _ v _ s _ hs => hs.bindSlot slots s.2 v
    split at hb
    · rename_i f₁ heq
      rw [heq] at hfold
      cases hb
      exact hfold.modifyBlock entry fun _ hx => hx
    · rename_i f₁ missing _ heq
      rw [heq] at hfold
      cases hb
      exact hfold

theorem deliverAll {g : FlowGraph} (h : f.Distinct) (hd : f.deliverAll g = .ok f') :
    f'.Distinct := by
  obtain ⟨n, t, -, ht, rfl, -⟩ := deliverAll_cases hd
  exact Transit.run_preserves (P := fun t => t.routine.Distinct) (Q := fun _ => True)
    (fun _ _ _ h _ _ _ => h.modifyBlock _ fun _ hx => Block.nodup_receive hx _ _)
      (fun _ _ _ _ => trivial)
    (fun _ _ _ h _ => h) ht h

end Distinct

/-- The routine comes from builder calls and passes of lowering, in any order and with any
graphs. -/
inductive Made : Routine → Prop where
  | new (name : String) : Made (.new name)
  | call {f : Routine} (h : Made f) (c : BuildCall) : Made (c.perform f).2
  | addExit {f : Routine} (h : Made f) (g : FlowGraph) : Made (f.addExit g).1
  | splitJoins {f f' f₀ : Routine} {g g₀ : FlowGraph} {n : Needs} {edges : List BlockId}
      (h : Made f)
      (hn : f₀.needs g₀ = .ok n) (hs : f.splitJoins g n = .ok (f', edges)) : Made f'
  | bindArguments {f f' : Routine} {n : Needs} {slots : List Slot} {e : Option SignatureError}
      (h : Made f)
      (hb : f.bindArguments n slots = .ok (f', e)) : Made f'
  | deliverAll {f f' : Routine} {g : FlowGraph} (h : Made f) (hd : f.deliverAll g = .ok f') :
      Made f'

theorem Made.distinct {f : Routine} (h : f.Made) : f.Distinct := by
  induction h with
  | new name => exact fun b => by cases b <;> exact List.nodup_nil
  | call _ c ih => exact ih.perform c
  | addExit _ g ih => exact ih.addExit g
  | splitJoins _ hn hs ih => exact ih.splitJoins (Needs.nodup_of (nodup_sites hn)) hs
  | bindArguments _ hb ih => exact ih.bindArguments hb
  | deliverAll _ hd ih => exact ih.deliverAll hd

end Routine

/-- Builder calls make a routine. -/
theorem History.made (name : String) (calls : List BuildCall) : (of name calls).routine.Made :=
  foldl_inv perform (fun _ h => h.routine.Made) calls _ (.new name) fun _ c _ _ _ h => h.call c

end ProcCompiler
