import Libseff.Foundation.BoundedPrinting

/-!
# HTTP responses

`utils/http_response.c`. `build_response` prints the lines of a response and its body behind each
other into a buffer, each with the room that `buff_size - response_length` leaves, and compares the
length with the size of the buffer after the last of them. A string is the list of its characters
before the terminator; a body is the bytes that may be read from its address on, and it is printed
as a string too.
-/

set_option autoImplicit false
set_option relaxedAutoImplicit false

namespace Libseff.Http

open Libseff.Foundation.BoundedPrinting

/-! ### Texts -/

/-- The bytes of a literal. -/
def ascii (text : String) : List UInt8 := text.toList.map Char.toUInt8

def decimal (n : ℕ) : List UInt8 := (Nat.toDigits 10 n).map Char.toUInt8

/-- The conversion `%0*d`. -/
def formatInt (width : ℕ) (value : ℤ) : List UInt8 :=
  let sign := if value < 0 then ascii "-" else []
  let digits := decimal value.natAbs
  sign ++ List.replicate (width - sign.length - digits.length) '0'.toUInt8 ++ digits

def crlf : List UInt8 := [13, 10]

def daysOfWeek : Fin 7 → List UInt8 :=
  ![ascii "Sun", ascii "Mon", ascii "Tue", ascii "Wed", ascii "Thu", ascii "Fri", ascii "Sat"]

def months : Fin 12 → List UInt8 :=
  ![ascii "Jan", ascii "Feb", ascii "Mar", ascii "Apr", ascii "May", ascii "Jun", ascii "Jul",
    ascii "Aug", ascii "Sep", ascii "Oct", ascii "Nov", ascii "Dec"]

/-- The fields of `struct tm` that are printed. -/
structure Tm where
  wday : Fin 7
  mday : ℤ
  mon : Fin 12
  year : ℤ
  hour : ℤ
  min : ℤ
  sec : ℤ

/-- `"Date: %s, %02d %s %04d %02d:%02d:%02d GMT"` -/
def dateField (tm : Tm) : List UInt8 :=
  ascii "Date: " ++ daysOfWeek tm.wday ++ ascii ", " ++ formatInt 2 tm.mday ++ ascii " " ++
    months tm.mon ++ ascii " " ++ formatInt 4 (tm.year + 1900) ++ ascii " " ++
    formatInt 2 tm.hour ++ ascii ":" ++ formatInt 2 tm.min ++ ascii ":" ++ formatInt 2 tm.sec ++
    ascii " GMT"

/-- `"Content-Length: %d"` -/
def lengthField (contentLength : ℤ) : List UInt8 :=
  ascii "Content-Length: " ++ formatInt 0 contentLength

/-- `"Content-Type: %s"` -/
def typeField (contentType : List UInt8) : List UInt8 := ascii "Content-Type: " ++ contentType

/-- The string at an address from which some bytes may be read: they have to hold its terminator. -/
def cString (bytes : List UInt8) : Option (List UInt8) :=
  if 0 ∈ bytes then some (bytes.takeWhile (· ≠ 0)) else none

/-! ### Printing -/

/-- `snprintf` with a size: the bytes it stores, and its result, which is negative for a length that
no `int` holds. -/
def snprintf (size : BitVec 64) (text : List UInt8) : List UInt8 × ℤ :=
  (truncate 0 size.toNat text, if text.length < 2 ^ 31 then text.length else -1)

/-- `response_length += snprintf(buffer + response_length, buff_size - response_length, …)` -/
def printResponse (buffSize : BitVec 64) (printed : Printed 64 UInt8) (text : List UInt8) :
    Printed 64 UInt8 :=
  let (stored, result) := snprintf (buffSize - printed.length) text
  ⟨printed.length + BitVec.ofInt 64 result, store printed.written printed.length.toNat stored⟩

/-- The texts that are printed, in their order. -/
def responseTexts (tm : Tm) (header contentType : List UInt8) (contentLength : ℤ)
    (body : List (List UInt8)) : List (List UInt8) :=
  [header, crlf, dateField tm ++ crlf, lengthField contentLength ++ crlf,
    typeField contentType ++ crlf, crlf] ++ body

/-- The last text: there is one if `content_length > 0`. -/
def bodyTexts (body : List UInt8) (contentLength : ℤ) : Option (List (List UInt8)) :=
  if contentLength > 0 then (cString body).map ([·]) else some []

/-- What a call leaves in the buffer, and its result. -/
structure Response where
  written : Written UInt8
  result : ℤ

/-- `build_response`. There is no outcome where the body is read behind its bytes. -/
def buildResponse (buffSize : BitVec 64) (tm : Tm) (header contentType body : List UInt8)
    (contentLength : ℤ) : Option Response := do
  let texts ← bodyTexts body contentLength
  let printed := (responseTexts tm header contentType contentLength texts).foldl
    (printResponse buffSize) ⟨0, fun _ ↦ none⟩
  -- `response_length < 0` does not hold of an unsigned length
  if buffSize ≤ printed.length then return ⟨printed.written, -1⟩
  return ⟨printed.written, (printed.length.setWidth 32).toInt⟩

/-! ### Standard prints -/

/-- An `int` holds the length of a text, so `snprintf` returns it. -/
def Printable (text : List UInt8) : Prop := text.length < 2 ^ 31

instance : DecidablePred Printable := fun text ↦ inferInstanceAs (Decidable (text.length < 2 ^ 31))

theorem printResponse_eq_print {text : List UInt8} (htext : Printable text) (buffSize : BitVec 64)
    (printed : Printed 64 UInt8) :
    printResponse buffSize printed text = printed.print 0 buffSize text := by
  unfold Printable at htext
  simp only [printResponse, snprintf, if_pos htext, Printed.print, BitVec.ofInt_natCast]

theorem foldl_printResponse {texts : List (List UInt8)} (htexts : ∀ text ∈ texts, Printable text)
    (buffSize : BitVec 64) :
    texts.foldl (printResponse buffSize) ⟨0, fun _ ↦ none⟩ = printAll 0 buffSize texts :=
  List.foldl_ext _ _ _ fun printed _ hmem ↦ printResponse_eq_print (htexts _ hmem) buffSize printed

theorem length_bodyTexts_le {body : List UInt8} {contentLength : ℤ} {texts : List (List UInt8)}
    (hbody : bodyTexts body contentLength = some texts) : texts.length ≤ 1 := by
  unfold bodyTexts at hbody
  split_ifs at hbody
  · obtain ⟨text, -, rfl⟩ := Option.map_eq_some_iff.mp hbody
    exact le_rfl
  · cases hbody
    exact Nat.zero_le 1

variable {tm : Tm} {header contentType body : List UInt8} {contentLength : ℤ}
  {texts : List (List UInt8)}

/-- A complete response is shorter than the range of `size_t`. -/
theorem length_responseTexts_lt (hbody : bodyTexts body contentLength = some texts)
    (hprint : ∀ text ∈ responseTexts tm header contentType contentLength texts, Printable text) :
    (responseTexts tm header contentType contentLength texts).flatten.length < 2 ^ 64 := by
  have hcount : (responseTexts tm header contentType contentLength texts).length ≤ 7 := by
    have hone := length_bodyTexts_le hbody
    rw [responseTexts, List.length_append]
    exact Nat.add_le_add_left hone 6
  have hsum := List.sum_le_card_nsmul
    ((responseTexts tm header contentType contentLength texts).map List.length) (2 ^ 31)
    (List.forall_mem_map.mpr fun text hmem ↦ (hprint text hmem).le)
  rw [List.length_map, smul_eq_mul] at hsum
  rw [List.length_flatten]
  omega

/-- The outcome of a call whose prints are all standard. -/
theorem buildResponse_eq (hbody : bodyTexts body contentLength = some texts)
    (hprint : ∀ text ∈ responseTexts tm header contentType contentLength texts, Printable text)
    (buffSize : BitVec 64) :
    buildResponse buffSize tm header contentType body contentLength = some
      { written := (printAll 0 buffSize
          (responseTexts tm header contentType contentLength texts)).written
        result :=
          if (responseTexts tm header contentType contentLength texts).flatten.length <
              buffSize.toNat then
            Int.bmod (responseTexts tm header contentType contentLength texts).flatten.length
              (2 ^ 32)
          else -1 } := by
  have hlength := length_printAll 0 buffSize (length_responseTexts_lt hbody hprint)
  simp only [buildResponse, hbody, Option.bind_eq_bind, Option.bind_some,
    foldl_printResponse hprint, BitVec.le_def, BitVec.toInt_setWidth, hlength]
  split_ifs with hle hlt hlt
  · exact absurd hlt (not_lt.mpr hle)
  · rfl
  · rfl
  · exact absurd (not_lt.mp hlt) hle

end Libseff.Http
