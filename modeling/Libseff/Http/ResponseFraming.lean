import Libseff.Foundation.HeadedMessages
import Libseff.Http.Response
import Mathlib.Data.List.TakeWhile

/-!
# The framing of a response

The announced length is an argument, and the body is printed as a string: it ends at its first zero
byte. A response is decoded by reading its lines up to the first empty one and as many bytes behind
that as the field `Content-Length` says. What is returned is the end of the decoded message just if
the string has the announced length (`frames_iff`).
-/

set_option autoImplicit false
set_option relaxedAutoImplicit false

namespace Libseff.Http

open Libseff.Foundation.BoundedPrinting
open Libseff.Foundation.HeadedMessages

/-! ### Decoding -/

/-- The number that digits stand for. -/
def readDecimal (text : List UInt8) : Option ℕ :=
  if text ≠ [] ∧ text.all fun byte ↦ (Char.ofUInt8 byte).isDigit then
    some (Nat.ofDigitChars 10 (text.map Char.ofUInt8) 0)
  else none

/-- The length that a line announces, if it is the field for it. -/
def fieldLength (line : List UInt8) : Option ℕ :=
  ((ascii "Content-Length:").isPrefixOf? line).bind fun value ↦
    readDecimal (value.dropWhile (· = ' '.toUInt8))

/-- The length that the fields behind the status line announce. -/
def announcedLength (lines : List (List UInt8)) : Option ℕ := lines.tail.findSome? fieldLength

def decodeMessage (text : List UInt8) : Option (ℕ × List UInt8) :=
  decode 13 10 announcedLength text

/-- Where a response is returned, the bytes that it counts are a message up to the last one, and
the message has the announced bytes of the body. -/
def Frames (body : List UInt8) (contentLength : ℤ) (response : Response) : Prop :=
  0 ≤ response.result → ∃ message : List UInt8,
    message.length = response.result.toNat ∧
      (∀ index < message.length, response.written index = message[index]?) ∧
        decodeMessage message =
          some (response.result.toNat, body.take contentLength.toNat)

/-! ### Digits -/

theorem toNat_of_isDigit {c : Char} (hc : c.isDigit) : 48 ≤ c.val.toNat ∧ c.val.toNat ≤ 57 := by
  rw [Char.isDigit, Bool.and_eq_true, decide_eq_true_eq, decide_eq_true_eq] at hc
  exact hc

theorem toNat_toUInt8 {c : Char} (hc : c.isDigit) : c.toUInt8.toNat = c.val.toNat := by
  have hrange := toNat_of_isDigit hc
  rw [← Char.toUInt8_val, UInt32.toNat_toUInt8]
  omega

theorem ofUInt8_toUInt8 {c : Char} (hc : c.isDigit) : Char.ofUInt8 c.toUInt8 = c := by
  apply Char.ext
  change c.toUInt8.toUInt32 = c.val
  rw [← UInt32.toNat_inj, UInt8.toNat_toUInt32, toNat_toUInt8 hc]

theorem isDigit_of_mem_decimal {n : ℕ} {byte : UInt8} (hbyte : byte ∈ decimal n) :
    (Char.ofUInt8 byte).isDigit ∧ 48 ≤ byte.toNat := by
  obtain ⟨c, hmem, rfl⟩ := List.mem_map.mp hbyte
  have hc := Nat.isDigit_of_mem_toDigits (by decide) (by decide) hmem
  rw [ofUInt8_toUInt8 hc, toNat_toUInt8 hc]
  exact ⟨hc, (toNat_of_isDigit hc).1⟩

/-- Digits that have been printed are read back. -/
theorem readDecimal_decimal (n : ℕ) : readDecimal (decimal n) = some n := by
  have hne : decimal n ≠ [] := fun h ↦ Nat.toDigits_ne_nil (List.map_eq_nil_iff.mp h)
  have hback : (decimal n).map Char.ofUInt8 = Nat.toDigits 10 n := by
    rw [decimal, List.map_map]
    refine (List.map_congr_left fun c hmem ↦ ?_).trans (List.map_id' _)
    exact ofUInt8_toUInt8 (Nat.isDigit_of_mem_toDigits (by decide) (by decide) hmem)
  have hdigits : (decimal n).all fun byte ↦ (Char.ofUInt8 byte).isDigit :=
    List.all_eq_true.mpr fun byte hbyte ↦ (isDigit_of_mem_decimal hbyte).1
  rw [readDecimal, if_pos ⟨hne, hdigits⟩, hback, Nat.ofDigitChars_ten_toDigits]

theorem not_mem_decimal (n : ℕ) : 13 ∉ decimal n :=
  fun hmem ↦ absurd (isDigit_of_mem_decimal hmem).2 (by decide)

theorem not_mem_formatInt (width : ℕ) (value : ℤ) : 13 ∉ formatInt width value := by
  have hsign : (13 : UInt8) ∉ if value < 0 then ascii "-" else [] := by
    split_ifs
    · decide
    · exact List.not_mem_nil
  rw [formatInt, List.mem_append, List.mem_append, List.mem_replicate]
  rintro ((hmem | hmem) | hmem)
  · exact hsign hmem
  · exact absurd hmem.2 (by decide)
  · exact not_mem_decimal _ hmem

/-! ### The head of a response -/

theorem not_mem_daysOfWeek : ∀ day, 13 ∉ daysOfWeek day := by decide

theorem not_mem_months : ∀ month, 13 ∉ months month := by decide

theorem not_mem_dateField (tm : Tm) : 13 ∉ dateField tm := by
  simp only [dateField, List.mem_append, not_mem_daysOfWeek, not_mem_months, not_mem_formatInt,
    or_false]
  decide

/-- The lines of a head. -/
def responseLines (tm : Tm) (header contentType : List UInt8) (contentLength : ℤ) :
    List (List UInt8) :=
  [header, dateField tm, lengthField contentLength, typeField contentType]

variable {tm : Tm} {header contentType body : List UInt8} {contentLength : ℤ}
  {texts : List (List UInt8)}

/-- A response is its head and its body. -/
theorem flatten_responseTexts :
    (responseTexts tm header contentType contentLength texts).flatten =
      head 13 10 (responseLines tm header contentType contentLength) ++ texts.flatten := by
  simp [responseTexts, head, responseLines, crlf]

/-- Assumes: the status line is a line, and the content type has no line end. The lines of a
response are read back. -/
theorem readHead_response (tm : Tm) (contentLength : ℤ) (hheader : header ≠ [] ∧ 13 ∉ header)
    (htype : 13 ∉ contentType) (behind : List UInt8) :
    readHead 13 10 []
        (head 13 10 (responseLines tm header contentType contentLength) ++ behind) =
      some (responseLines tm header contentType contentLength, behind) := by
  refine readHead_head ?_ behind
  simp only [responseLines, List.forall_mem_cons]
  refine ⟨hheader, ⟨?_, not_mem_dateField tm⟩, ⟨?_, ?_⟩, ⟨?_, ?_⟩, List.forall_mem_nil _⟩
  · exact List.append_ne_nil_of_left_ne_nil (by simp [ascii]) _
  · exact List.append_ne_nil_of_left_ne_nil (by decide) _
  · rw [lengthField, List.mem_append]
    exact not_or.mpr ⟨by decide, not_mem_formatInt _ _⟩
  · exact List.append_ne_nil_of_left_ne_nil (by decide) _
  · rw [typeField, List.mem_append]
    exact not_or.mpr ⟨by decide, htype⟩

theorem formatInt_zero (hlength : 0 ≤ contentLength) :
    formatInt 0 contentLength = decimal contentLength.toNat := by
  obtain ⟨length, rfl⟩ := Int.eq_ofNat_of_zero_le hlength
  simp [formatInt]

/-- The field for the length announces the argument. -/
theorem fieldLength_lengthField (hlength : 0 ≤ contentLength) :
    fieldLength (lengthField contentLength) = some contentLength.toNat := by
  have hbegins : (ascii "Content-Length:").isPrefixOf? (lengthField contentLength) =
      some (' '.toUInt8 :: decimal contentLength.toNat) := by
    rw [List.isPrefixOf?_eq_some_iff_append_eq, lengthField, formatInt_zero hlength]
    rfl
  have hdigits : (decimal contentLength.toNat).dropWhile (· = ' '.toUInt8) =
      decimal contentLength.toNat := by
    refine List.dropWhile_eq_self_iff.mpr fun hpos hspace ↦ ?_
    have hfirst := (isDigit_of_mem_decimal (List.getElem_mem hpos)).2
    rw [of_decide_eq_true hspace] at hfirst
    exact absurd hfirst (by decide)
  rw [fieldLength, hbegins, Option.bind_some, List.dropWhile_cons_of_pos (by decide), hdigits,
    readDecimal_decimal]

/-- The field before it announces nothing. -/
theorem fieldLength_dateField (tm : Tm) : fieldLength (dateField tm) = none := rfl

theorem announcedLength_responseLines (hlength : 0 ≤ contentLength) :
    announcedLength (responseLines tm header contentType contentLength) =
      some contentLength.toNat := by
  simp only [announcedLength, responseLines, List.tail_cons, List.findSome?_cons,
    fieldLength_dateField, fieldLength_lengthField hlength]

/-! ### The framing -/

/-- What is printed of a body stands at its beginning. -/
theorem flatten_bodyTexts_prefix (hbody : bodyTexts body contentLength = some texts) :
    texts.flatten <+: body := by
  unfold bodyTexts at hbody
  split_ifs at hbody
  · obtain ⟨text, htext, rfl⟩ := Option.map_eq_some_iff.mp hbody
    unfold cString at htext
    split_ifs at htext
    rw [List.flatten_singleton, ← Option.some_inj.mp htext]
    exact List.takeWhile_prefix _
  · cases hbody
    exact List.nil_prefix

/-- A body is printed as one text at most. -/
theorem length_flatten_bodyTexts_lt (hbody : bodyTexts body contentLength = some texts)
    (hprint : ∀ text ∈ texts, Printable text) : texts.flatten.length < 2 ^ 31 := by
  unfold bodyTexts at hbody
  split_ifs at hbody
  · obtain ⟨text, -, rfl⟩ := Option.map_eq_some_iff.mp hbody
    rw [List.flatten_singleton]
    exact hprint text List.mem_cons_self
  · cases hbody
    decide

/-- Assumes: what is read is the beginning of a text. Then it is known. -/
theorem eq_take_of_reads {written : Written UInt8} {text message : List UInt8}
    (hlength : message.length ≤ text.length)
    (hwritten : ∀ index < text.length, written index = text[index]?)
    (hread : ∀ index < message.length, written index = message[index]?) :
    message = text.take message.length := by
  refine List.ext_getElem? fun index ↦ ?_
  by_cases hindex : index < message.length
  · rw [List.getElem?_take_of_lt hindex, ← hread index hindex,
      hwritten index (hindex.trans_le hlength)]
  · rw [List.getElem?_eq_none (not_lt.mp hindex),
      List.getElem?_eq_none (by rw [List.length_take]; omega)]

/-- A length of at least 2^32 is cut by that much at least where its `int` is not negative. -/
theorem bmod_le_of_le {length : ℕ} (hlong : 2 ^ 31 ≤ length)
    (hpos : 0 ≤ Int.bmod length (2 ^ 32)) : Int.bmod length (2 ^ 32) + 2 ^ 32 ≤ length := by
  rw [Int.bmod_def] at hpos ⊢
  split_ifs at hpos ⊢ <;> omega

theorem bmod_le (length : ℕ) : Int.bmod length (2 ^ 32) ≤ length := by
  rw [Int.bmod_def]
  split_ifs <;> omega

section Framing

variable {buffSize : BitVec 64}

/-- Assumes: the response fits, and its length is a result. The bytes that are returned are a
message up to the last one if and only if the length is an `int` and the body has been printed with
the announced length. -/
theorem decode_take_response_iff (hheader : header ≠ [] ∧ 13 ∉ header) (htype : 13 ∉ contentType)
    (hlength : 0 ≤ contentLength) (hbytes : contentLength ≤ body.length)
    (hbody : bodyTexts body contentLength = some texts) (hprint : ∀ text ∈ texts, Printable text)
    {complete : List UInt8}
    (hcomplete : complete = head 13 10 (responseLines tm header contentType contentLength) ++
      texts.flatten)
    (hpos : 0 ≤ Int.bmod complete.length (2 ^ 32)) :
    decodeMessage (complete.take (Int.bmod complete.length (2 ^ 32)).toNat) =
        some ((Int.bmod complete.length (2 ^ 32)).toNat, body.take contentLength.toNat) ↔
      complete.length < 2 ^ 31 ∧ texts.flatten.length = contentLength := by
  have hle := bmod_le complete.length
  have hshort := length_flatten_bodyTexts_lt hbody hprint
  have hread := readHead_response tm contentLength hheader htype texts.flatten
  rw [← hcomplete] at hread
  unfold decodeMessage
  rw [decode_take_iff hread (announcedLength_responseLines hlength) (by omega)]
  constructor
  · rintro ⟨hcount, -⟩
    have hint : complete.length < 2 ^ 31 := by
      by_contra hlong
      have hcut := bmod_le_of_le (not_lt.mp hlong) hpos
      omega
    have hsame := Int.bmod_eq_of_le (n := complete.length) (m := 2 ^ 32) (by omega) (by omega)
    exact ⟨hint, by omega⟩
  · rintro ⟨hint, hsame⟩
    rw [Int.bmod_eq_of_le (by omega) (by omega)]
    obtain ⟨behind, rfl⟩ := flatten_bodyTexts_prefix hbody
    have htake : contentLength.toNat = texts.flatten.length := by omega
    rw [htake, List.take_left, List.take_length]
    exact ⟨by omega, rfl⟩

/-- The bytes that a result counts are those of the complete response. -/
theorem frames_iff_decode {complete : List UInt8} {result : ℤ} {written : Written UInt8}
    (hwritten : ∀ index < complete.length, written index = complete[index]?)
    (hresult : result ≤ complete.length) :
    Frames body contentLength ⟨written, result⟩ ↔
      (0 ≤ result → decodeMessage (complete.take result.toNat) =
        some (result.toNat, body.take contentLength.toNat)) := by
  refine imp_congr_right fun (hpos : 0 ≤ result) ↦ ?_
  have hcount : (complete.take result.toNat).length = result.toNat :=
    List.length_take_of_le (by omega)
  constructor
  · rintro ⟨message, hlength, hread, hdecode⟩
    change message.length = result.toNat at hlength
    have heq := eq_take_of_reads (by omega) hwritten hread
    rwa [heq, hlength] at hdecode
  · intro hdecode
    refine ⟨complete.take result.toNat, hcount, fun index hindex ↦ ?_, hdecode⟩
    rw [hcount] at hindex
    rw [List.getElem?_take_of_lt hindex]
    exact hwritten index (by omega)

/-- Assumes: the status line is a line, the content type has no line end, the body has the announced
bytes, and every print is standard. The response is framed if and only if the body is a string where
it is printed and, unless the buffer is too small or the length of the response no result, that
length is an `int` and the string has the announced length. -/
theorem frames_iff (hheader : header ≠ [] ∧ 13 ∉ header) (htype : 13 ∉ contentType)
    (hlength : 0 ≤ contentLength) (hbytes : contentLength ≤ body.length)
    (hprint : ∀ texts, bodyTexts body contentLength = some texts →
      ∀ text ∈ responseTexts tm header contentType contentLength texts, Printable text) :
    (∃ response, buildResponse buffSize tm header contentType body contentLength = some response ∧
        Frames body contentLength response) ↔
      ∃ texts, bodyTexts body contentLength = some texts ∧
        let complete := (responseTexts tm header contentType contentLength texts).flatten
        (complete.length < buffSize.toNat → 0 ≤ Int.bmod complete.length (2 ^ 32) →
          complete.length < 2 ^ 31 ∧ texts.flatten.length = contentLength) := by
  cases hbody : bodyTexts body contentLength with
  | none =>
    refine iff_of_false ?_ ?_
    · rintro ⟨response, hresponse, -⟩
      simp only [buildResponse, hbody, Option.bind_eq_bind, Option.bind_none] at hresponse
      cases hresponse
    · rintro ⟨texts, hsome, -⟩
      cases hsome
  | some texts =>
    have hall := hprint texts hbody
    have hlong := length_responseTexts_lt hbody hall
    have htexts : ∀ text ∈ texts, Printable text :=
      fun text hmem ↦ hall text (List.mem_append_right _ hmem)
    rw [buildResponse_eq hbody hall buffSize]
    simp only [Option.some_inj, exists_eq_left']
    by_cases hfits : (responseTexts tm header contentType contentLength texts).flatten.length <
        buffSize.toNat
    · rw [if_pos hfits, frames_iff_decode (fun index ↦ written_printAll hfits) (bmod_le _),
        imp_iff_right hfits]
      exact imp_congr_right (decode_take_response_iff hheader htype hlength hbytes hbody htexts
        flatten_responseTexts)
    · rw [if_neg hfits]
      exact iff_of_true (fun h : (0 : ℤ) ≤ -1 ↦ absurd h (by decide)) fun h ↦ absurd h hfits

/-- A response with a text as its body. -/
theorem frames_text :
    ∃ response, buildResponse 65536 ⟨4, 1, 0, 70, 0, 0, 0⟩ (ascii "HTTP/1.1 200 OK")
        (ascii "text/plain") (ascii "Hello, world!" ++ [0]) 13 = some response ∧
      Frames (ascii "Hello, world!" ++ [0]) 13 response := by
  have hbody : bodyTexts (ascii "Hello, world!" ++ [0]) 13 = some [ascii "Hello, world!"] := by
    decide
  refine (frames_iff (by decide) (by decide) (by decide) (by decide) fun texts hsome ↦ ?_).mpr
    ⟨[ascii "Hello, world!"], hbody, by decide⟩
  rw [hbody, Option.some_inj] at hsome
  rw [← hsome]
  decide

/-- A body with a zero byte: three bytes are announced, and one is printed. -/
theorem frames_counterexample :
    ¬∃ response, buildResponse 65536 ⟨4, 1, 0, 70, 0, 0, 0⟩ (ascii "HTTP/1.1 200 OK")
        (ascii "application/octet-stream") [97, 0, 98, 0] 3 = some response ∧
      Frames [97, 0, 98, 0] 3 response := by
  rintro ⟨response, hresponse, hframes⟩
  have hbody : bodyTexts [97, 0, 98, 0] 3 = some [[97]] := by decide
  rw [buildResponse_eq hbody (by decide), Option.some_inj] at hresponse
  rw [← hresponse, frames_iff_decode (fun index ↦ written_printAll (by decide)) (by decide)]
    at hframes
  exact absurd (hframes (by decide)) (by decide +kernel)

end Framing

end Libseff.Http
