import Libseff.Foundation.SystemCalls

/-!
# Programs that are parametric in their values

A program may be written for any type of the values that it gets as answers, so that it only passes
them on. Two instances of such a program make the same calls, up to the values in them, and whatever
the two answers to a call are, they are a pair that the instances may use from then on
(`Program.Parallel`). What holds of the pairs used so far is carried along by induction on this
relation.

How two calls correspond when their values do is a parameter, a relator of the type of the calls.
-/

set_option autoImplicit false
set_option relaxedAutoImplicit false

namespace Libseff.Foundation.SystemCalls

variable {Call Call' Value Value' : Type}

/-- Two programs that make corresponding calls, given the pairs of values that they may use: each
pair of answers is one more, and the results are one of them. -/
inductive Program.Parallel (lift : (Value → Value' → Prop) → Call → Call' → Prop) :
    List (Value × Value') → Program Call (fun _ ↦ Value) Value →
      Program Call' (fun _ ↦ Value') Value' → Prop
  | done {pairs : List (Value × Value')} {result : Value} {result' : Value'}
      (hresult : (result, result') ∈ pairs) : Parallel lift pairs (.done result) (.done result')
  | call {pairs : List (Value × Value')} {request : Call} {request' : Call'}
      {next : Value → Program Call (fun _ ↦ Value) Value}
      {next' : Value' → Program Call' (fun _ ↦ Value') Value'}
      (hrequest : lift (fun value value' ↦ (value, value') ∈ pairs) request request')
      (hnext : ∀ value value', Parallel lift ((value, value') :: pairs) (next value)
        (next' value')) :
      Parallel lift pairs (.call request next) (.call request' next')

variable {lift : (Value → Value' → Prop) → Call → Call' → Prop}
  {pairs more : List (Value × Value')}

/-- A call with its answer is parallel to a corresponding one. -/
theorem parallel_ask {request : Call} {request' : Call'}
    (hrequest : lift (fun value value' ↦ (value, value') ∈ pairs) request request') :
    Program.Parallel lift pairs (ask (fun _ ↦ Value) request) (ask (fun _ ↦ Value') request') :=
  .call hrequest fun _ _ ↦ .done List.mem_cons_self

/-- Assumes: what follows is parallel whenever the results are one of the pairs then. -/
theorem Program.Parallel.bind {program : Program Call (fun _ ↦ Value) Value}
    {program' : Program Call' (fun _ ↦ Value') Value'}
    {next : Value → Program Call (fun _ ↦ Value) Value}
    {next' : Value' → Program Call' (fun _ ↦ Value') Value'}
    (hprogram : Program.Parallel lift pairs program program')
    (hnext : ∀ more value value', pairs ⊆ more → (value, value') ∈ more →
      Program.Parallel lift more (next value) (next' value')) :
    Program.Parallel lift pairs (program >>= next) (program' >>= next') := by
  induction hprogram with
  | done hresult => exact hnext _ _ _ (List.Subset.refl _) hresult
  | call hrequest _ ih =>
    refine .call hrequest fun value value' ↦ ih value value' fun more first second hmore hmem ↦ ?_
    exact hnext more first second (fun _ h ↦ hmore (List.mem_cons_of_mem _ h)) hmem

end Libseff.Foundation.SystemCalls
