import Libseff.Net.Await

/-!
# Sending all of a buffer

What `await_send_all` is for: it offers the bytes behind those that have been accepted until there
are none left or an attempt fails. An attempt fails if `send` is refused for another reason than
that it would block, if the wait ends with a hang-up or without room, or if `send` is refused after
the wait.

The function keeps what is accepted and what is left in an `int` each, so it does this for buffers
shorter than `2 ^ 31` bytes; for an empty one it returns a variable that has not been set
(`sendsAll_iff`). A hang-up is reported to it as 0 accepted bytes, and it goes on.
-/

set_option autoImplicit false
set_option relaxedAutoImplicit false

namespace Libseff.Net

open Libseff.Foundation
open Libseff.Foundation.SystemCalls

/-! ### The kernel -/

/-- A kernel that accepts a part of what it is offered or fails, and that reports any events. -/
def sendKernel : Surroundings Call Answer Unit Empty where
  answers _ request answer _ :=
    match request, answer with
    | .send _ length, accepted => -1 ≤ accepted ∧ accepted ≤ length
    | _, _ => True
  happens _ event _ := event.elim

/-- A poll neither fails nor reports a hang-up. -/
def Calm : Label Call Answer Empty → Prop
  | .answer (.poll _) revents => ∃ events, revents = some events ∧ HANGUP &&& events = 0
  | _ => True

def AllCalm (labels : List (Label Call Answer Empty)) : Prop := ∀ label ∈ labels, Calm label

/-! ### What has been sent -/

/-- The bytes that an answer accepts. -/
def acceptedBy : Label Call Answer Empty → ℤ
  | .answer (.send _ _) accepted => max accepted 0
  | _ => 0

/-- The bytes accepted so far. -/
def accepted (labels : List (Label Call Answer Empty)) : ℤ := (labels.map acceptedBy).sum

/-- Where an attempt to send is. -/
inductive Attempt
  | fresh
  | refused
  | waiting
  | ready
  | failed
  deriving DecidableEq

def Attempt.next : Attempt → Label Call Answer Empty → Attempt
  | .failed, _ => .failed
  | attempt, .answer (.send _ _) accepted =>
    if 0 ≤ accepted then .fresh else if attempt = .ready then .failed else .refused
  | _, .answer .errno err => if err = EAGAIN ∨ err = EWOULDBLOCK then .waiting else .failed
  | _, .answer (.poll _) none => .failed
  | _, .answer (.poll _) (some events) =>
    if HANGUP &&& events = 0 ∧ WRITE &&& events ≠ 0 then .ready else .failed
  | attempt, _ => attempt

/-- Where the last attempt is, or that one has failed. -/
def attempt (labels : List (Label Call Answer Empty)) : Attempt :=
  labels.foldl Attempt.next .fresh

/-- A call may be made as long as bytes are left and no attempt has failed. Bytes that are offered
are in the buffer, behind those that have been accepted. -/
def MayCall (bufsz : ℕ) (history : History Call Answer Unit Empty) (request : Call) : Prop :=
  attempt history.1 ≠ .failed ∧ accepted history.1 < bufsz ∧
    ∀ offset length, request = .send offset length →
      offset = accepted history.1 ∧ 0 < length ∧ offset + length ≤ bufsz

/-- No attempt but the last one has failed, and the result tells whether all bytes have been
accepted. -/
def Tells (bufsz : ℕ) (history : History Call Answer Unit Empty) (result : Option ℤ) : Prop :=
  attempt history.1.dropLast ≠ .failed ∧
    result = some (if accepted history.1 = bufsz then (bufsz : ℤ) else -1)

/-- What `await_send_all` is for: at the end of a run it is at a call that may be made, or at a
result that tells what has been accepted. -/
def SendsAll (bufsz : ℕ) (labels : List (Label Call Answer Empty))
    (activity : Activity Call Answer Sending (Option ℤ)) : Prop :=
  activity.Meets (MayCall bufsz) (Tells bufsz) (labels, ())

/-- The runs of `await_send_all`. -/
def sendSystem (bufsz : ℕ) :
    TransitionSystem (Activity Call Answer Sending (Option ℤ) × Unit) (Label Call Answer Empty) :=
  (awaitSendAll bufsz).system sendKernel (Sending.start bufsz) fun _ ↦ True

/-! ### Labels -/

theorem accepted_concat (labels : List (Label Call Answer Empty))
    (label : Label Call Answer Empty) :
    accepted (labels ++ [label]) = accepted labels + acceptedBy label := by
  rw [accepted, List.map_append, List.sum_append, List.map_singleton, List.sum_singleton, accepted]

theorem attempt_concat (labels : List (Label Call Answer Empty))
    (label : Label Call Answer Empty) :
    attempt (labels ++ [label]) = (attempt labels).next label := by
  rw [attempt, List.foldl_append]
  rfl

theorem allCalm_concat_iff {labels : List (Label Call Answer Empty)}
    {label : Label Call Answer Empty} :
    AllCalm (labels ++ [label]) ↔ AllCalm labels ∧ Calm label := by
  rw [AllCalm, List.forall_mem_append, List.forall_mem_singleton, AllCalm]

/-! ### One attempt -/

/-- In every run, what is at its end is right just if all polls have been calm. -/
abbrev EnsuresIfCalm {Result : Type} (bufsz : ℕ)
    (right : History Call Answer Unit Empty → Result → Prop)
    (program : Program Call Answer Result) (history : History Call Answer Unit Empty) : Prop :=
  program.Ensures sendKernel (fun _ _ ↦ True)
    (fun history request ↦ MayCall bufsz history request ↔ AllCalm history.1) right history

/-- What an attempt reports: a failure, the bytes it has sent, or a poll that has not been calm. -/
def Reports (length : ℕ) (before : ℤ) (history : History Call Answer Unit Empty)
    (result : Option ℤ) : Prop :=
  (AllCalm history.1 ∧ attempt history.1.dropLast ≠ .failed ∧ accepted history.1 = before ∧
      result = some (-1)) ∨
    (AllCalm history.1 ∧ attempt history.1 = .fresh ∧
      ∃ n : ℤ, 0 ≤ n ∧ n ≤ length ∧ accepted history.1 = before + n ∧ result = some n) ∨
    (¬AllCalm history.1 ∧ attempt history.1 = .failed ∧ (result = none ∨ result = some 0))

variable {bufsz length : ℕ} {offset : ℤ} {history : History Call Answer Unit Empty}

/-- Assumes: a history in which a call may be made. So may another one that offers nothing else,
after an answer that accepts nothing. -/
theorem MayCall.again {request other : Call} (hmay : MayCall bufsz history request)
    {later : History Call Answer Unit Empty} (hsame : accepted later.1 = accepted history.1)
    (hgoing : attempt later.1 ≠ .failed)
    (hother : ∀ offset length, other = .send offset length → request = other) :
    MayCall bufsz later other := by
  refine ⟨hgoing, hsame ▸ hmay.2.1, fun offset length hsend ↦ ?_⟩
  rw [hsame]
  exact hmay.2.2 offset length ((hother offset length hsend).trans hsend)

/-- A `send` is made where it may be, and bytes are accepted or it is refused. -/
theorem ensures_send {Result : Type} {next : ℤ → Program Call Answer Result}
    {right : History Call Answer Unit Empty → Result → Prop} (hcalm : AllCalm history.1)
    (hmay : MayCall bufsz history (.send offset length))
    (haccepted : ∀ n : ℤ, 0 ≤ n → n ≤ length → ∀ later : History Call Answer Unit Empty,
      AllCalm later.1 → accepted later.1 = accepted history.1 + n → attempt later.1 = .fresh →
        EnsuresIfCalm bufsz right (next n) later)
    (hrefused : ∀ later : History Call Answer Unit Empty, AllCalm later.1 →
      later.1.dropLast = history.1 → accepted later.1 = accepted history.1 →
        attempt later.1 = (if attempt history.1 = .ready then .failed else .refused) →
          EnsuresIfCalm bufsz right (next (-1)) later) :
    EnsuresIfCalm bufsz right (ask Answer (.send offset length) >>= next) history := by
  refine ensures_ask_iff.mpr ⟨iff_of_true hmay hcalm, fun (n : ℤ) _ hanswer _ ↦ ?_⟩
  change -1 ≤ n ∧ n ≤ length at hanswer
  have hcalms : AllCalm (history.1 ++ [.answer (.send offset length) n]) :=
    allCalm_concat_iff.mpr ⟨hcalm, trivial⟩
  have hnext : (attempt history.1).next (.answer (.send offset length) n) =
      if 0 ≤ n then .fresh else if attempt history.1 = .ready then .failed else .refused := by
    cases hattempt : attempt history.1
    all_goals first | rfl | exact absurd hattempt hmay.1
  by_cases hpos : 0 ≤ n
  · refine haccepted n hpos hanswer.2 _ hcalms ?_ ?_
    · rw [accepted_concat, acceptedBy, max_eq_left hpos]
    · rw [attempt_concat, hnext, if_pos hpos]
  · obtain rfl : n = -1 := by omega
    refine hrefused _ hcalms List.dropLast_concat ?_ ?_
    · rw [accepted_concat]
      exact add_zero _
    · rw [attempt_concat, hnext, if_neg hpos]

/-- The attempt waits, and is calm or not. -/
theorem ensures_pollAwait {Result : Type} {next : Option (BitVec 16) → Program Call Answer Result}
    {right : History Call Answer Unit Empty → Result → Prop} (hcalm : AllCalm history.1)
    (hmay : MayCall bufsz history (.poll WRITE)) (hwaiting : attempt history.1 = .waiting)
    (hpolled : ∀ events : BitVec 16, HANGUP &&& events = 0 →
      ∀ later : History Call Answer Unit Empty, AllCalm later.1 →
        later.1.dropLast = history.1 → accepted later.1 = accepted history.1 →
          attempt later.1 = (if WRITE &&& events ≠ 0 then .ready else .failed) →
            EnsuresIfCalm bufsz right (next (some events)) later)
    (hhung : ∀ revents : Option (BitVec 16), (∀ events ∈ revents, HANGUP &&& events ≠ 0) →
      ∀ later : History Call Answer Unit Empty, ¬AllCalm later.1 → attempt later.1 = .failed →
        EnsuresIfCalm bufsz right (next revents) later) :
    EnsuresIfCalm bufsz right (pollAwait WRITE >>= next) history := by
  unfold pollAwait
  refine ensures_ask_iff.mpr ⟨iff_of_true hmay hcalm, fun revents _ _ _ ↦ ?_⟩
  have hnext : attempt (history.1 ++ [.answer (.poll WRITE) revents]) =
      Attempt.waiting.next (.answer (.poll WRITE) revents) := by
    rw [attempt_concat, hwaiting]
  by_cases hcalms : AllCalm (history.1 ++ [.answer (.poll WRITE) revents])
  · obtain ⟨events, rfl, hevents⟩ := (allCalm_concat_iff.mp hcalms).2
    refine hpolled events hevents _ hcalms List.dropLast_concat ?_ ?_
    · rw [accepted_concat]
      exact add_zero _
    · rw [hnext]
      simp only [Attempt.next, hevents, true_and]
  · have hevents : ∀ events ∈ revents, HANGUP &&& events ≠ 0 := fun events hsome hzero ↦
      hcalms (allCalm_concat_iff.mpr ⟨hcalm, events, hsome, hzero⟩)
    refine hhung revents hevents _ hcalms ?_
    rw [hnext]
    cases revents with
    | none => rfl
    | some events => exact if_neg fun h ↦ hevents events rfl h.1

/-- An attempt reports what it has sent. -/
theorem awaitSend_ensures (hlength : length < 2 ^ 31) (hcalm : AllCalm history.1)
    (hmay : MayCall bufsz history (.send offset length)) (hfresh : attempt history.1 = .fresh) :
    EnsuresIfCalm bufsz (Reports length (accepted history.1)) (awaitSend offset length)
      history := by
  have hint : ∀ n : ℤ, 0 ≤ n → n ≤ length → asInt n = n := fun n hpos hle ↦
    asInt_eq_self (by omega) (by omega)
  have hminus : asInt (-1) = -1 := by decide
  unfold awaitSend
  refine ensures_send hcalm hmay ?_ ?_
  · intro n hpos hle later hcalms haccepted hattempt
    simp only [hint n hpos hle, ge_iff_le, if_pos hpos]
    exact ensures_done_iff.mpr (.inr (.inl ⟨hcalms, hattempt, n, hpos, hle, haccepted, rfl⟩))
  · intro refused hcalms _ hrefused hattempt
    rw [hfresh, if_neg (by decide)] at hattempt
    simp only [hminus, ge_iff_le, Int.reduceNeg, Int.reduceLE, if_false]
    refine ensures_ask_iff.mpr ⟨iff_of_true (hmay.again hrefused (by rw [hattempt]; decide) nofun)
      hcalms, fun (err : ℤ) _ _ _ ↦ ?_⟩
    have hasked : AllCalm (refused.1 ++ [.answer .errno err]) :=
      allCalm_concat_iff.mpr ⟨hcalms, trivial⟩
    have hsame : accepted (refused.1 ++ [.answer .errno err]) = accepted history.1 := by
      rw [accepted_concat, hrefused]
      exact add_zero _
    split_ifs with hother
    · refine ensures_done_iff.mpr (.inl ⟨hasked, ?_, hsame, rfl⟩)
      rw [List.dropLast_concat, hattempt]
      decide
    · have hwaiting : attempt (refused.1 ++ [.answer .errno err]) = .waiting := by
        rw [attempt_concat, hattempt]
        exact if_pos (by rwa [not_and_or, not_not, not_not] at hother)
      refine ensures_pollAwait hasked (hmay.again hsame (by rw [hwaiting]; decide) nofun) hwaiting
        ?_ ?_
      · intro events hevents polled hcalms hlast hpolled hattempt
        have hstill : accepted polled.1 = accepted history.1 := hpolled.trans hsame
        simp only [hevents, ne_eq, not_true_eq_false, if_false]
        split_ifs with hroom
        · refine ensures_done_iff.mpr (.inl ⟨hcalms, ?_, hstill, rfl⟩)
          rw [hlast, hwaiting]
          decide
        · rw [if_pos hroom] at hattempt
          refine ensures_send hcalms (hmay.again hstill (by rw [hattempt]; decide) fun _ _ _ ↦ rfl)
            ?_ ?_
          · intro n hpos hle later hcalms haccepted hattempt
            simp only [hint n hpos hle]
            rw [hstill] at haccepted
            exact ensures_done_iff.mpr (.inr (.inl
              ⟨hcalms, hattempt, n, hpos, hle, haccepted, rfl⟩))
          · intro later hcalms hlast hlater _
            simp only [hminus]
            refine ensures_done_iff.mpr (.inl ⟨hcalms, ?_, hlater.trans hstill, rfl⟩)
            rw [hlast, hattempt]
            decide
      · intro revents hevents later hcalms hattempt
        cases revents with
        | none => exact ensures_done_iff.mpr (.inr (.inr ⟨hcalms, hattempt, .inl rfl⟩))
        | some events =>
          simp only [if_pos (hevents events rfl)]
          exact ensures_done_iff.mpr (.inr (.inr ⟨hcalms, hattempt, .inr rfl⟩))

/-! ### The loop -/

/-- The variables between two attempts. -/
structure Between (bufsz : ℕ) (history : History Call Answer Unit Empty) (locals : Sending) :
    Prop where
  calm : AllCalm history.1
  fresh : attempt history.1 = .fresh
  total : locals.total = accepted history.1
  bytesleft : locals.bytesleft = bufsz - locals.total
  nonneg : 0 ≤ locals.total
  le : locals.total ≤ bufsz
  n_set : 0 < locals.total → ∃ n, locals.n = some n ∧ 0 ≤ n

/-- A poll has not been calm, and a call is made or has been made after it. -/
def GoesOn (bufsz : ℕ) (history : History Call Answer Unit Empty) (locals : Sending) : Prop :=
  ¬AllCalm history.1 ∧ (attempt history.1.dropLast = .failed ∨
    (attempt history.1 = .failed ∧ asSize locals.total < bufsz))

/-- A failed attempt stays the last one. -/
theorem attempt_of_dropLast {labels : List (Label Call Answer Empty)}
    (h : attempt labels.dropLast = .failed) : attempt labels = .failed := by
  induction labels using List.reverseRecOn with
  | nil => exact h
  | append_singleton labels label _ =>
    rw [List.dropLast_concat] at h
    rw [attempt_concat, h]
    rfl

/-- What a round keeps, and what is said of the result. -/
abbrev KeepsSending (bufsz : ℕ) : History Call Answer Unit Empty → Sending ⊕ Option ℤ → Prop :=
  Keeps (fun history locals ↦ Between bufsz history locals ∨ GoesOn bufsz history locals)
    (fun history result ↦ Tells bufsz history result ↔ AllCalm history.1)

/-- Assumes: an attempt has failed before the last answer. Nothing is right any more. -/
theorem ensures_of_failed (program : Program Call Answer (Sending ⊕ Option ℤ))
    (hcalm : ¬AllCalm history.1) (hfailed : attempt history.1.dropLast = .failed) :
    EnsuresIfCalm bufsz (KeepsSending bufsz) program history := by
  induction program generalizing history with
  | done result =>
    refine ensures_done_iff.mpr ?_
    cases result with
    | inl locals => exact .inr ⟨hcalm, .inl hfailed⟩
    | inr result => exact iff_of_false (fun h ↦ h.1 hfailed) hcalm
  | call request next ih =>
    have hlast := attempt_of_dropLast hfailed
    refine ensures_call_iff.mpr ⟨iff_of_false (fun h ↦ h.1 hlast) hcalm, fun answer _ _ _ ↦ ?_⟩
    exact ih answer (fun h ↦ hcalm (allCalm_concat_iff.mp h).1)
      (by rw [List.dropLast_concat]; exact hlast)

/-- A round after a poll that has not been calm. -/
theorem awaitSendAll_ensures_of_goesOn {locals : Sending} (h : GoesOn bufsz history locals) :
    EnsuresIfCalm bufsz (KeepsSending bufsz) (awaitSendAll bufsz locals) history := by
  obtain ⟨hcalm, hfailed | ⟨hfailed, hmore⟩⟩ := h
  · exact ensures_of_failed _ hcalm hfailed
  · rw [awaitSendAll, if_pos hmore]
    refine ensures_call_iff.mpr ⟨iff_of_false (fun h ↦ h.1 hfailed) hcalm, fun answer _ _ _ ↦ ?_⟩
    exact ensures_of_failed _ (fun h ↦ hcalm (allCalm_concat_iff.mp h).1)
      (by rw [List.dropLast_concat]; exact hfailed)

/-- Assumes: a buffer that an `int` counts. A round between two attempts. -/
theorem awaitSendAll_ensures (hpos : 0 < bufsz) (hint : bufsz < 2 ^ 31) {locals : Sending}
    (h : Between bufsz history locals) :
    EnsuresIfCalm bufsz (KeepsSending bufsz) (awaitSendAll bufsz locals) history := by
  obtain ⟨hcalm, hfresh, htotal, hbytesleft, hnonneg, hle, hset⟩ := h
  have hsize : asSize locals.total = locals.total.toNat := asSize_eq_toNat hnonneg (by omega)
  have hleft : asSize locals.bytesleft = locals.bytesleft.toNat :=
    asSize_eq_toNat (by omega) (by omega)
  unfold awaitSendAll
  split_ifs with hmore
  · have hmay : MayCall bufsz history (.send locals.total (asSize locals.bytesleft)) := by
      refine ⟨by rw [hfresh]; decide, by omega, fun offset length hsend ↦ ?_⟩
      cases hsend
      omega
    refine ensures_bind ((awaitSend_ensures (by omega) hcalm hmay hfresh).mono
      fun later result hreports ↦ ?_)
    rcases hreports with ⟨hcalms, hlast, hsame, rfl⟩ |
      ⟨hcalms, hattempt, n, hnpos, hnle, haccepted, rfl⟩ | ⟨hcalms, hattempt, rfl | rfl⟩
    · refine ensures_done_iff.mpr (iff_of_true ⟨hlast, ?_⟩ hcalms)
      rw [hsame, if_neg (by omega)]
    · simp only [if_neg (show n ≠ -1 by omega)]
      refine ensures_done_iff.mpr (.inl ?_)
      rw [asInt_eq_self (by omega) (by omega), asInt_eq_self (by omega) (by omega)]
      exact ⟨hcalms, hattempt, by dsimp only; omega, by dsimp only; omega, by dsimp only; omega,
        by dsimp only; omega, fun _ ↦ ⟨n, rfl, hnpos⟩⟩
    · exact ensures_done_iff.mpr (iff_of_false (fun h ↦ nomatch h.2) hcalms)
    · -- the hang-up is taken for an attempt that has sent nothing
      refine ensures_done_iff.mpr (.inr ⟨hcalms, .inr ⟨hattempt, ?_⟩⟩)
      rw [add_zero, asInt_eq_self (by omega) (by omega)]
      exact hmore
  · obtain ⟨n, hn, hnpos⟩ := hset (by omega)
    refine ensures_done_iff.mpr (iff_of_true ⟨?_, ?_⟩ hcalm)
    · exact fun hfailed ↦ absurd (hfresh.symm.trans (attempt_of_dropLast hfailed)) (by decide)
    · rw [hn, ← htotal, if_pos (by omega), Option.map_some, if_neg (by omega)]
      congr 1
      omega

/-- Assumes: a buffer that an `int` counts. At the end of every run all that has been done is right
if and only if all polls have been calm. -/
theorem sendsAll_iff_allCalm (hpos : 0 < bufsz) (hint : bufsz < 2 ^ 31)
    {labels : List (Label Call Answer Empty)}
    {reached : Activity Call Answer Sending (Option ℤ) × Unit}
    (hrun : (sendSystem bufsz).Run (fun _ _ ↦ True) labels reached) :
    SendsAll bufsz labels reached.1 ↔ AllCalm labels := by
  have hstart : ∀ state : Unit, True → Between bufsz ([], state) (Sending.start bufsz) ∨
      GoesOn bufsz ([], state) (Sending.start bufsz) := by
    refine fun _ _ ↦ .inl ⟨fun _ hmem ↦ absurd hmem List.not_mem_nil, rfl, rfl, ?_, le_rfl, ?_, ?_⟩
    · rw [Sending.start, asInt_eq_self (by omega) (by omega), sub_zero]
    · exact Int.natCast_nonneg bufsz
    · exact fun h ↦ absurd h (lt_irrefl _)
  have hround : ∀ (history : History Call Answer Unit Empty) (locals : Sending),
      Between bufsz history locals ∨ GoesOn bufsz history locals →
        EnsuresIfCalm bufsz (KeepsSending bufsz) (awaitSendAll bufsz locals) history := by
    rintro history locals (h | h)
    · exact awaitSendAll_ensures hpos hint h
    · exact awaitSendAll_ensures_of_goesOn h
  have hmeets := Loop.meets_of_run (fun _ _ ↦ True) hrun hstart hround
  obtain ⟨activity, state⟩ := reached
  cases activity with
  | calling request next => exact hmeets
  | returned result => exact hmeets

/-! ### Buffers of any size -/

/-- Where bytes are left, a round offers them; accepted ones are counted as an `int`. -/
theorem exists_next_awaitSendAll (bufsz : ℕ) (total bytesleft : ℤ) (set : Option ℤ)
    (hmore : asSize total < bufsz) :
    ∃ next : ℤ → Program Call Answer (Sending ⊕ Option ℤ),
      awaitSendAll bufsz ⟨total, bytesleft, set⟩ = .call (.send total (asSize bytesleft)) next ∧
        ∀ n, 0 ≤ asInt n → next n =
          .done (.inl ⟨asInt (total + asInt n), asInt (bytesleft - asInt n), some (asInt n)⟩) := by
  rw [awaitSendAll, if_pos hmore]
  refine ⟨_, rfl, fun n hn ↦ ?_⟩
  simp only [Program.bind, ge_iff_le, if_pos hn]
  exact if_neg (by omega)

/-- Assumes: the condition is the right one for every run on a buffer that is not empty. Then so it
is at the first call, and at the second one after some bytes have been accepted. -/
theorem mayCall_of_forall_run (hpos : 0 < bufsz)
    (h : ∀ labels reached, (sendSystem bufsz).Run (fun _ _ ↦ True) labels reached →
      (SendsAll bufsz labels reached.1 ↔ AllCalm labels)) :
    MayCall bufsz ([], ()) (.send 0 (asSize (asInt bufsz))) ∧
      ∀ n : ℤ, 0 ≤ n → n ≤ asSize (asInt bufsz) → 0 ≤ asInt n →
        asSize (asInt (0 + asInt n)) < bufsz →
          MayCall bufsz ([.answer (.send 0 (asSize (asInt bufsz))) n], ())
            (.send (asInt (0 + asInt n)) (asSize (asInt (asInt bufsz - asInt n)))) := by
  obtain ⟨next, hcall, hnext⟩ := exists_next_awaitSendAll bufsz 0 (asInt bufsz) none hpos
  have hfirst : (sendSystem bufsz).Run (fun _ _ ↦ True) []
      (.calling (.send 0 (asSize (asInt bufsz))) next, ()) := by
    refine .start ⟨?_, trivial⟩
    rw [Sending.start, hcall]
    exact .call _ _
  refine ⟨(h _ _ hfirst).mpr fun _ hmem ↦ absurd hmem List.not_mem_nil,
    fun n hn hle hint hmore ↦ ?_⟩
  obtain ⟨again, hagain, -⟩ := exists_next_awaitSendAll bufsz (asInt (0 + asInt n))
    (asInt (asInt bufsz - asInt n)) (some (asInt n)) hmore
  have hsecond : (sendSystem bufsz).Run (fun _ _ ↦ True)
      [.answer (.send 0 (asSize (asInt bufsz))) n]
      (.calling (.send (asInt (0 + asInt n)) (asSize (asInt (asInt bufsz - asInt n)))) again,
        ()) := by
    refine hfirst.step trivial (.answer ⟨le_trans neg_one_lt_zero.le hn, hle⟩ ?_)
    rw [hnext n hint]
    refine .round ?_
    rw [hagain]
    exact .call _ _
  exact (h _ _ hsecond).mpr (List.forall_mem_singleton.mpr trivial)

/-- That all is done right just if all polls have been calm holds of the buffers that are not empty
and that an `int` counts. -/
theorem sendsAll_iff (hsize : bufsz < 2 ^ 64) :
    (∀ labels reached, (sendSystem bufsz).Run (fun _ _ ↦ True) labels reached →
      (SendsAll bufsz labels reached.1 ↔ AllCalm labels)) ↔ 0 < bufsz ∧ bufsz < 2 ^ 31 := by
  refine ⟨fun h ↦ ?_, fun ⟨hpos, hint⟩ labels reached ↦ sendsAll_iff_allCalm hpos hint⟩
  have hpos : 0 < bufsz := by
    by_contra hempty
    obtain rfl : bufsz = 0 := by omega
    have hstart : (sendSystem 0).Run (fun _ _ ↦ True) [] (.returned none, ()) :=
      .start ⟨.returned none, trivial⟩
    exact nomatch ((h _ _ hstart).mpr fun _ hmem ↦ absurd hmem List.not_mem_nil).2
  refine ⟨hpos, ?_⟩
  by_contra hlarge
  obtain ⟨hfirst, hnext⟩ := mayCall_of_forall_run hpos h
  obtain ⟨-, hsome, -⟩ := hfirst.2.2 _ _ rfl
  have hlow : -2 ^ 31 ≤ asInt bufsz := Int.le_bmod (by decide)
  have hhigh : asInt bufsz < 2 ^ 31 := Int.bmod_lt (by decide)
  by_cases hnonneg : 0 ≤ asInt bufsz
  · -- all that is offered is accepted, and nothing is offered after it
    have hsame : asInt (asInt bufsz) = asInt bufsz := asInt_eq_self hlow hhigh
    have hoffered : asSize (asInt bufsz) = (asInt bufsz).toNat :=
      asSize_eq_toNat hnonneg (by omega)
    obtain ⟨-, hmore, -⟩ := (hnext (asInt bufsz) hnonneg (by omega) (by rwa [hsame])
      (by rw [hsame, zero_add, hsame, hoffered]; omega)).2.2 _ _ rfl
    rw [hsame, sub_self] at hmore
    exact absurd hmore (by decide)
  · -- the offer is nearly the whole address space, and what is accepted of it is no `int`
    have hoffered : 2 ^ 32 ≤ asSize (asInt bufsz) := by
      unfold asSize
      omega
    have hnone : asInt (0 + asInt (2 ^ 32)) = 0 := by decide
    obtain ⟨hbehind, -, -⟩ := (hnext (2 ^ 32) (by decide) (by exact_mod_cast hoffered) (by decide)
      (by rw [hnone]; exact hpos)).2.2 _ _ rfl
    rw [hnone] at hbehind
    change 0 = max (2 ^ 32 : ℤ) 0 + 0 at hbehind
    exact absurd hbehind (by decide)

/-- The condition on a short buffer. -/
theorem sendsAll_short :
    (∀ labels reached, (sendSystem 5).Run (fun _ _ ↦ True) labels reached →
      (SendsAll 5 labels reached.1 ↔ AllCalm labels)) ↔ 0 < 5 ∧ 5 < 2 ^ 31 :=
  sendsAll_iff (by decide)

/-- With an empty buffer the result is an unset variable; after a hang-up the same byte is offered
again. -/
theorem sendsAll_counterexample :
    (∃ reached, (sendSystem 0).Run (fun _ _ ↦ True) [] reached ∧ ¬SendsAll 0 [] reached.1) ∧
      ∃ reached, (sendSystem 1).Run (fun _ _ ↦ True) [.answer (.send 0 1) (-1),
          .answer .errno EAGAIN, .answer (.poll WRITE) (some HANGUP)] reached ∧
        ¬SendsAll 1 [.answer (.send 0 1) (-1), .answer .errno EAGAIN,
          .answer (.poll WRITE) (some HANGUP)] reached.1 := by
  constructor
  · exact ⟨(.returned none, ()), .start ⟨.returned none, trivial⟩, fun h ↦ nomatch h.2⟩
  · have hsend : (sendSystem 1).Run (fun _ _ ↦ True) [] (.calling (.send 0 1) _, ()) :=
      .start ⟨.call _ _, trivial⟩
    have hrefused : (sendSystem 1).Run (fun _ _ ↦ True) [.answer (.send 0 1) (-1)]
        (.calling .errno _, ()) :=
      hsend.step trivial (.answer ⟨le_rfl, by decide⟩ (.call _ _))
    have hasked : (sendSystem 1).Run (fun _ _ ↦ True)
        [.answer (.send 0 1) (-1), .answer .errno EAGAIN] (.calling (.poll WRITE) _, ()) :=
      hrefused.step trivial (.answer trivial (.call _ _))
    have hpolled : (sendSystem 1).Run (fun _ _ ↦ True)
        [.answer (.send 0 1) (-1), .answer .errno EAGAIN, .answer (.poll WRITE) (some HANGUP)]
        (.calling (.send 0 1) _, ()) :=
      hasked.step trivial (.answer trivial (.round (.call _ _)))
    exact ⟨_, hpolled, fun h ↦ h.1 (by decide)⟩

end Libseff.Net
