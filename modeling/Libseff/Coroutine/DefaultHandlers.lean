import Libseff.Coroutine.HandlerSimulation

/-!
# Default handlers

Where no coroutine handles an effect, `seff_perform` and `seff_throw` of `src/seff.h` and
`src/seff.c` call the entry of the effect in the table `default_handlers`. The initialiser of the
table has one element, so `unhandled_effect_handler` is the entry of effect 0 only, and the other
entries start as `NULL`.

`unhandled_reaches_iff` says when both functions call the handler most recently set for the effect,
or `unhandled_effect_handler`: when the effect is 0 or a handler was set for it. Otherwise they call
through a null pointer (`not_reachesDefault`). Setting a handler and restoring the previous one
leaves the table as it was, however such brackets are nested (`Bracketed.run_eq`).
-/

set_option autoImplicit false
set_option relaxedAutoImplicit false

namespace Libseff.Coroutine

open Foundation

/-! ### src/seff.c -/

/-- `MAX_EFFECTS`. -/
def maxEffects : ℕ := 64

/-- The functions in `default_handlers`, by effect id below `MAX_EFFECTS`. -/
abbrev DefaultHandlers := Word → Word

/-- `default_handlers` before the first call. -/
def defaultHandlers (unhandledEffectHandler : Word) : DefaultHandlers := fun effect ↦
  if effect = 0 then unhandledEffectHandler else 0

/-- `seff_set_default_handler(effect, handler)`. -/
def seffSetDefaultHandler (effect handler : Word) (table : DefaultHandlers) :
    Word × DefaultHandlers :=
  let prev := table effect
  (prev, Function.update table effect handler)

/-- `seff_get_default_handler(effect)`. -/
def seffGetDefaultHandler (effect : Word) (table : DefaultHandlers) : Word := table effect

/-- How a request goes on: a coroutine is yielded to or exited, or a function is called, after whose
return `seff_perform` returns and `seff_throw` ends the program. -/
inductive Dispatch
  | yield (handler effect payload : Word)
  | exit (handler effect payload : Word)
  | call (function payload : Word)
  | callThenExit (function payload : Word)
  deriving DecidableEq

/-- `seff_perform(eff_id, payload)` with current coroutine `current`. -/
def seffPerform (coroutines : Word → SeffCoroutine) (current effect payload : Word)
    (table : DefaultHandlers) (fuel : ℕ) : Option Dispatch := do
  let handler ← seffLocateHandler coroutines current effect fuel
  if handler ≠ 0 then some (.yield handler effect payload)
  else some (.call (seffGetDefaultHandler effect table) payload)

/-- `seff_throw(eff_id, payload)` with current coroutine `current`. -/
def seffThrow (coroutines : Word → SeffCoroutine) (current effect payload : Word)
    (table : DefaultHandlers) (fuel : ℕ) : Option Dispatch := do
  let handler ← seffLocateHandler coroutines current effect fuel
  if handler ≠ 0 then some (.exit handler effect payload)
  else some (.callThenExit (table effect) payload)

/-! ### Chains without a handler -/

/-- The coroutines from `current` by parent links, up to `NULL`. -/
def IsParentChain (coroutines : Word → SeffCoroutine) (current : Word) : List Word → Prop
  | [] => current = 0
  | k :: rest => current = k ∧ k ≠ 0 ∧ IsParentChain coroutines (coroutines k).parentCoroutine rest

/-- The loop of `seff_locate_handler` runs to the end of a chain on which nothing handles the
effect. -/
theorem locateLoop_eq_zero {coroutines : Word → SeffCoroutine} {current effect : Word}
    (heffect : effect.toNat < 64) {chain : List Word}
    (hchain : IsParentChain coroutines current chain)
    (hunhandled : ∀ k ∈ chain, effect ∉ effectSet (coroutines k).handledEffects) {fuel : ℕ}
    (hfuel : chain.length < fuel) :
    locateLoop coroutines (1#64 <<< effect.toNat) fuel current = some 0 := by
  induction chain generalizing current fuel with
  | nil =>
    obtain ⟨fuel, rfl⟩ := Nat.exists_eq_add_one_of_ne_zero (by omega : fuel ≠ 0)
    rw [show current = 0 from hchain, locateLoop, if_neg fun h ↦ h.1 rfl]
  | cons k rest ih =>
    obtain ⟨fuel, rfl⟩ := Nat.exists_eq_add_one_of_ne_zero (by omega : fuel ≠ 0)
    obtain ⟨rfl, hnonnull, hrest⟩ := hchain
    have hskip := hunhandled current (by simp)
    rw [mem_effectSet heffect, not_not] at hskip
    rw [locateLoop_skip hnonnull hskip]
    exact ih hrest (fun k hk ↦ hunhandled k (List.mem_cons_of_mem _ hk))
      (by simpa using hfuel)

/-- Without a handler both functions call the entry of the table. -/
theorem dispatch_of_unhandled {coroutines : Word → SeffCoroutine} {current effect : Word}
    (heffect : effect.toNat < 64) {chain : List Word}
    (hchain : IsParentChain coroutines current chain)
    (hunhandled : ∀ k ∈ chain, effect ∉ effectSet (coroutines k).handledEffects)
    (payload : Word) (table : DefaultHandlers) {fuel : ℕ} (hfuel : chain.length < fuel) :
    seffPerform coroutines current effect payload table fuel =
        some (.call (table effect) payload) ∧
      seffThrow coroutines current effect payload table fuel =
        some (.callThenExit (table effect) payload) := by
  have hlocate : seffLocateHandler coroutines current effect fuel = some 0 := by
    rw [seffLocateHandler, if_pos (ne_returnEffectId heffect)]
    exact locateLoop_eq_zero heffect hchain hunhandled hfuel
  simp [seffPerform, seffThrow, hlocate, seffGetDefaultHandler]

/-! ### Histories of the table -/

/-- The table after the calls `seff_set_default_handler(effect, handler)` of a history. -/
def runSets (history : List (Word × Word)) (table : DefaultHandlers) : DefaultHandlers :=
  history.foldl (fun table set ↦ (seffSetDefaultHandler set.1 set.2 table).2) table

/-- The handler of the last call of a history for an effect. -/
def mostRecentlySet (effect : Word) (history : List (Word × Word)) : Option Word :=
  ((history.filter fun set ↦ set.1 = effect).getLast?).map Prod.snd

theorem mostRecentlySet_concat (effect : Word) (history : List (Word × Word))
    (set : Word × Word) : mostRecentlySet effect (history ++ [set]) =
      if set.1 = effect then some set.2 else mostRecentlySet effect history := by
  by_cases hset : set.1 = effect <;> simp [mostRecentlySet, List.filter_append, hset]

/-- The table holds what was set last, and elsewhere what it held at first. -/
theorem runSets_apply (history : List (Word × Word)) (table : DefaultHandlers) (effect : Word) :
    runSets history table effect = (mostRecentlySet effect history).getD (table effect) := by
  induction history using List.reverseRecOn with
  | nil => rfl
  | append_singleton history set ih =>
    rw [runSets, List.foldl_concat, mostRecentlySet_concat]
    by_cases hset : set.1 = effect
    · simp [seffSetDefaultHandler, hset]
    · rw [if_neg hset, ← ih]
      exact Function.update_of_ne (Ne.symm hset) _ _

theorem mostRecentlySet_eq_none_iff (effect : Word) (history : List (Word × Word)) :
    mostRecentlySet effect history = none ↔ ∀ set ∈ history, set.1 ≠ effect := by
  simp [mostRecentlySet]

theorem mem_of_mostRecentlySet {effect handler : Word} {history : List (Word × Word)}
    (h : mostRecentlySet effect history = some handler) : (effect, handler) ∈ history := by
  obtain ⟨set, hlast, rfl⟩ := Option.map_eq_some_iff.mp h
  have hmem := List.mem_of_getLast? hlast
  rw [List.mem_filter] at hmem
  obtain ⟨hmem, heffect⟩ := hmem
  rwa [← of_decide_eq_true heffect]

/-- Calls of `seff_set_default_handler` that are bracketed: each set is followed by a restoration of
what it returned, and other brackets in between. -/
inductive Bracketed
  | skip
  | bracket (effect handler : Word) (body : Bracketed)
  | seq (first second : Bracketed)

def Bracketed.run : Bracketed → DefaultHandlers → DefaultHandlers
  | .skip, table => table
  | .bracket effect handler body, table =>
    let (prev, table) := seffSetDefaultHandler effect handler table
    (seffSetDefaultHandler effect prev (body.run table)).2
  | .seq first second, table => second.run (first.run table)

theorem Bracketed.run_eq (program : Bracketed) (table : DefaultHandlers) :
    program.run table = table := by
  induction program generalizing table with
  | skip => rfl
  | bracket effect handler body ih => simp [run, seffSetDefaultHandler, ih]
  | seq first second ihFirst ihSecond => rw [run, ihFirst, ihSecond]

/-! ### Unhandled effects -/

section Unhandled

variable (unhandledEffectHandler : Word) (history : List (Word × Word))
  (coroutines : Word → SeffCoroutine) (current effect : Word) (chain : List Word)

/-- An effect that nothing on the parent chain handles reaches the handler most recently set for it,
or `unhandled_effect_handler`, and no null pointer. Setting a handler returns the previous one, and
bracketed sets leave every entry as it was. -/
structure ReachesDefault : Prop where
  dispatch : ∀ payload fuel, chain.length < fuel →
    seffPerform coroutines current effect payload
        (runSets history (defaultHandlers unhandledEffectHandler)) fuel =
      some (.call ((mostRecentlySet effect history).getD unhandledEffectHandler) payload) ∧
    seffThrow coroutines current effect payload
        (runSets history (defaultHandlers unhandledEffectHandler)) fuel =
      some (.callThenExit ((mostRecentlySet effect history).getD unhandledEffectHandler) payload)
  nonnull : (mostRecentlySet effect history).getD unhandledEffectHandler ≠ 0
  previous : ∀ set handler,
    (seffSetDefaultHandler set handler
        (runSets history (defaultHandlers unhandledEffectHandler))).1 =
      seffGetDefaultHandler set (runSets history (defaultHandlers unhandledEffectHandler))
  bracketed : ∀ program : Bracketed,
    program.run (runSets history (defaultHandlers unhandledEffectHandler)) =
      runSets history (defaultHandlers unhandledEffectHandler)

variable {unhandledEffectHandler history coroutines current effect chain}

/-- **Unhandled effects.** An effect that no active coroutine handles reaches its default handler
exactly when it is effect 0 or a handler was set for it.

Assumes: the handlers set are no null pointers. -/
theorem unhandled_reaches_iff (hnonnull : unhandledEffectHandler ≠ 0)
    (hhistory : ∀ set ∈ history, set.1.toNat < maxEffects ∧ set.2 ≠ 0)
    (heffect : effect.toNat < maxEffects) (hchain : IsParentChain coroutines current chain)
    (hunhandled : ∀ k ∈ chain, effect ∉ effectSet (coroutines k).handledEffects) :
    ReachesDefault unhandledEffectHandler history coroutines current effect chain ↔
      effect = 0 ∨ ∃ set ∈ history, set.1 = effect := by
  have hdispatch := fun payload fuel (hfuel : chain.length < fuel) ↦
    dispatch_of_unhandled heffect hchain hunhandled payload
      (runSets history (defaultHandlers unhandledEffectHandler)) hfuel
  simp only [runSets_apply history _ effect] at hdispatch
  constructor
  · intro h
    by_contra hnever
    obtain ⟨hzero, hunset⟩ := not_or.mp hnever
    have hnone := (mostRecentlySet_eq_none_iff effect history).mpr fun set hset heq ↦
      hunset ⟨set, hset, heq⟩
    have hcall := (hdispatch 0 _ (Nat.lt_succ_self _)).1.symm.trans
      (h.dispatch 0 _ (Nat.lt_succ_self _)).1
    simp only [hnone, Option.getD_none, defaultHandlers, if_neg hzero, Option.some.injEq,
      Dispatch.call.injEq, and_true] at hcall
    exact hnonnull hcall.symm
  · intro hset
    have hexpected : (mostRecentlySet effect history).getD
          (defaultHandlers unhandledEffectHandler effect) =
        (mostRecentlySet effect history).getD unhandledEffectHandler := by
      rcases hset with rfl | ⟨set, hmem, hset⟩
      · rfl
      · cases hrecent : mostRecentlySet effect history with
        | none =>
          exact absurd hset ((mostRecentlySet_eq_none_iff effect history).mp hrecent set hmem)
        | some handler => rfl
    rw [hexpected] at hdispatch
    refine ⟨hdispatch, ?_, fun _ _ ↦ rfl, fun program ↦ program.run_eq _⟩
    cases hrecent : mostRecentlySet effect history with
    | none => exact hnonnull
    | some handler => exact (hhistory _ (mem_of_mostRecentlySet hrecent)).2

end Unhandled

/-- A coroutine that handles effect 1, whose parent handles effect 5. -/
def handlingOthers (k : Word) : SeffCoroutine :=
  if k = 0x5000 then
    { zeroMachine.coroutines k with parentCoroutine := 0x4000, handledEffects := 0b10 }
  else { zeroMachine.coroutines k with handledEffects := 0b100000 }

theorem unhandled_reaches_iff_chain :
    ReachesDefault 0x401000 [(3, 0x402000), (5, 0x403000), (3, 0x404000)] handlingOthers 0x5000 3
      [0x5000, 0x4000] := by
  have hskipped : ∀ {k : Word}, (handlingOthers k).handledEffects &&& (1#64 <<< 3) = 0 →
      3 ∉ effectSet (handlingOthers k).handledEffects := by
    intro k hskip
    rw [mem_effectSet (by decide), not_not]
    exact hskip
  have hunhandled : ∀ k ∈ [(0x5000 : Word), 0x4000],
      3 ∉ effectSet (handlingOthers k).handledEffects :=
    List.forall_mem_cons.mpr ⟨hskipped rfl, List.forall_mem_singleton.mpr (hskipped rfl)⟩
  have hchain : IsParentChain handlingOthers 0x5000 [0x5000, 0x4000] :=
    ⟨rfl, by decide, rfl, by decide, rfl⟩
  have hhistory : ∀ set ∈ [((3 : Word), (0x402000 : Word)), (5, 0x403000), (3, 0x404000)],
      set.1.toNat < maxEffects ∧ set.2 ≠ 0 :=
    List.forall_mem_cons.mpr ⟨by decide, List.forall_mem_cons.mpr
      ⟨by decide, List.forall_mem_singleton.mpr (by decide)⟩⟩
  exact (unhandled_reaches_iff (by decide) hhistory (by decide) hchain hunhandled).mpr
    (.inr ⟨_, List.mem_cons_self, rfl⟩)

/-- At the top level, before any handler is set, performing effect 1 calls through a null
pointer. -/
theorem not_reachesDefault :
    seffPerform zeroMachine.coroutines 0 1 0 (runSets [] (defaultHandlers 0x401000)) 1 =
        some (.call 0 0) ∧
      ¬ ReachesDefault 0x401000 [] zeroMachine.coroutines 0 1 [] := by
  refine ⟨by decide, fun h ↦ ?_⟩
  exact absurd (h.dispatch 0 1 (by decide)).1 (by decide)

end Libseff.Coroutine
