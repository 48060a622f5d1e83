import Libseff.Http.Response

/-!
# The buffer of a response

The room that is left is an unsigned difference, and it is compared with nothing before a print.
Once the text so far is longer than the buffer the next print has nearly the whole address space as
its room and stores its text behind the buffer, which is noticed, if at all, after the last print.
So a call stays in its buffer just if everything before the last text fits into it
(`staysInside_iff`). The result is an `int`, and a buffer may hold more than that counts.
-/

set_option autoImplicit false
set_option relaxedAutoImplicit false

namespace Libseff.Http

open Libseff.Foundation.BoundedPrinting

/-- Nothing is written behind the buffer, and the result is the length of the complete response if
that is less than the size of the buffer, and -1 otherwise. -/
def StaysInside (buffSize : BitVec 64) (complete : List UInt8) (response : Response) : Prop :=
  (∀ index, buffSize.toNat ≤ index → response.written index = none) ∧
    response.result = if complete.length < buffSize.toNat then (complete.length : ℤ) else -1

/-- The length of a complete response as an `int`. -/
theorem bmod_length_eq_iff (length : ℕ) :
    Int.bmod length (2 ^ 32) = (length : ℤ) ↔ length < 2 ^ 31 := by
  constructor
  · intro h
    have hlt := Int.bmod_lt (x := length) (m := 2 ^ 32) (by decide)
    rw [h] at hlt
    omega
  · intro h
    exact Int.bmod_eq_of_le (by omega) (by omega)

variable {buffSize : BitVec 64} {tm : Tm} {header contentType body : List UInt8}
  {contentLength : ℤ} {texts : List (List UInt8)}

/-- Assumes: the body is a string where it is printed, and every print is standard. The call stays
inside its buffer if and only if all texts but the last one fit into it and a complete response
that is shorter than the buffer has a length that is an `int`. -/
theorem staysInside_iff (hbody : bodyTexts body contentLength = some texts)
    (hprint : ∀ text ∈ responseTexts tm header contentType contentLength texts, Printable text) :
    (∃ response, buildResponse buffSize tm header contentType body contentLength = some response ∧
        StaysInside buffSize (responseTexts tm header contentType contentLength texts).flatten
          response) ↔
      (responseTexts tm header contentType contentLength texts).dropLast.flatten.length ≤
          buffSize.toNat ∧
        ((responseTexts tm header contentType contentLength texts).flatten.length <
            buffSize.toNat →
          (responseTexts tm header contentType contentLength texts).flatten.length < 2 ^ 31) := by
  have hlong := length_responseTexts_lt hbody hprint
  have hcall := buildResponse_eq hbody hprint buffSize
  set complete := responseTexts tm header contentType contentLength texts
  have hresult : ((if complete.flatten.length < buffSize.toNat then
        Int.bmod complete.flatten.length (2 ^ 32) else -1) =
      if complete.flatten.length < buffSize.toNat then (complete.flatten.length : ℤ) else -1) ↔
        (complete.flatten.length < buffSize.toNat → complete.flatten.length < 2 ^ 31) := by
    by_cases hfits : complete.flatten.length < buffSize.toNat
    · rw [if_pos hfits, if_pos hfits, bmod_length_eq_iff]
      exact (imp_iff_right hfits).symm
    · rw [if_neg hfits, if_neg hfits]
      exact iff_of_true rfl fun h ↦ absurd h hfits
  rw [← within_printAll_iff 0 hlong, ← hresult, hcall]
  constructor
  · rintro ⟨response, hresponse, hinside⟩
    rw [← Option.some_inj.mp hresponse] at hinside
    exact hinside
  · intro hinside
    exact ⟨_, rfl, hinside⟩

/-- A response with a short body, in a buffer of the server. -/
theorem staysInside_server :
    ∃ response, buildResponse 65536 ⟨4, 1, 0, 70, 0, 0, 0⟩ (ascii "HTTP/1.1 200 OK")
        (ascii "text/plain") (ascii "Hello, world!" ++ [0]) 13 = some response ∧
      StaysInside 65536 (responseTexts ⟨4, 1, 0, 70, 0, 0, 0⟩ (ascii "HTTP/1.1 200 OK")
        (ascii "text/plain") 13 [ascii "Hello, world!"]).flatten response :=
  (staysInside_iff (by decide) (by decide)).mpr (by decide)

/-- The status line does not fit: the line end behind it is written behind the buffer. -/
theorem staysInside_counterexample :
    ¬∃ response, buildResponse 8 ⟨4, 1, 0, 70, 0, 0, 0⟩ (ascii "HTTP/1.1 200 OK")
        (ascii "text/plain") [] 0 = some response ∧
      StaysInside 8 (responseTexts ⟨4, 1, 0, 70, 0, 0, 0⟩ (ascii "HTTP/1.1 200 OK")
        (ascii "text/plain") 0 []).flatten response := by
  rintro ⟨response, hresponse, hinside, -⟩
  have hwritten : (buildResponse 8 ⟨4, 1, 0, 70, 0, 0, 0⟩ (ascii "HTTP/1.1 200 OK")
      (ascii "text/plain") [] 0).map (fun response ↦ response.written 15) = some (some 13) := by
    decide +kernel
  rw [hresponse, Option.map_some, hinside 15 (by decide)] at hwritten
  exact nomatch hwritten

end Libseff.Http
