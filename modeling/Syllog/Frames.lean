import Mathlib.Data.List.DropRight
import Mathlib.Data.String.Basic
/-!
# Frames — what transports send, and the text of their lines

The frames of a provider transport with the errors it reports, and `str::from_utf8` on the bytes of a line.  A carriage
return is one byte of one character, so it can be taken off a line before decoding or after.
-/
namespace Syllog
namespace Transport

abbrev Bytes := List UInt8

inductive ProviderErrorCategory where
  | cancelled | timeout | authentication | rateLimited | protocol | unavailable
deriving DecidableEq, Repr

structure ProviderError where
  category : ProviderErrorCategory
  message : String
  retryAfter : Option Nat
deriving DecidableEq, Repr

def ProviderError.categorized (category : ProviderErrorCategory) (message : String) : ProviderError :=
  ⟨category, message, none⟩

def protocol (message : String) : ProviderError := .categorized .protocol message

inductive TransportFrame where
  | data (event : String)
  | error (error : ProviderError)
deriving DecidableEq, Repr

def lineFeed : UInt8 := 10

def carriageReturn : UInt8 := 13

/-! ## Text of bytes -/

/-- `std::str::from_utf8`. -/
def fromUtf8 (bytes : Bytes) : Option String := String.fromUTF8? bytes.toByteArray

theorem fromUtf8_eq_some {bytes : Bytes} {s : String} :
    fromUtf8 bytes = some s ↔ bytes = s.toList.flatMap String.utf8EncodeChar := by
  have hencoded : s.toByteArray = (s.toList.flatMap String.utf8EncodeChar).toByteArray := String.utf8Encode_toList.symm
  rw [← List.toByteArray_inj, ← hencoded]
  unfold fromUtf8 String.fromUTF8?
  split
  · rename_i hvalid
    refine ⟨fun h => ?_, fun h => ?_⟩
    · rw [← Option.some.inj h]
      rfl
    · exact congrArg some (String.toByteArray_inj.mp h)
  · rename_i hinvalid
    refine ⟨(fun h => nomatch h), fun h => absurd ?_ hinvalid⟩
    rw [h]
    exact s.isValidUTF8

theorem length_of_fromUtf8 {bytes : Bytes} {s : String} (h : fromUtf8 bytes = some s) : s.utf8ByteSize = bytes.length := by
  have hencoded : s.toByteArray = (s.toList.flatMap String.utf8EncodeChar).toByteArray := String.utf8Encode_toList.symm
  rw [← String.size_toByteArray, hencoded, List.size_toByteArray, ← fromUtf8_eq_some.mp h]

theorem fromUtf8_ofList (chars : List Char) :
    fromUtf8 (chars.flatMap String.utf8EncodeChar) = some (String.ofList chars) := by
  rw [fromUtf8_eq_some, String.toList_ofList]

/-- The last byte of a character is a carriage return only when the character is one. -/
theorem eq_cr_of_getLast? {c : Char} (h : (String.utf8EncodeChar c).getLast? = some carriageReturn) : c = '\r' := by
  have hpos : 0 < (String.utf8EncodeChar c).length := by
    rw [String.length_utf8EncodeChar]
    exact c.utf8Size_pos
  obtain ⟨hindex, hbyte⟩ := List.getElem?_eq_some_iff.mp (List.getLast?_eq_getElem? ▸ h)
  have hfirst : (String.utf8EncodeChar c)[(String.utf8EncodeChar c).length - 1].IsUTF8FirstByte := by
    rw [hbyte]
    decide
  have hone : c.utf8Size = 1 := by
    have hzero := UInt8.isUTF8FirstByte_getElem_utf8EncodeChar.mp hfirst
    rw [String.length_utf8EncodeChar] at hzero hpos
    omega
  rw [String.utf8EncodeChar_eq_singleton hone] at h
  have hval : c.val.toNat % 256 = 13 := congrArg UInt8.toNat (Option.some.inj h)
  have hle : c.val.toNat ≤ 127 := UInt32.le_iff_toNat_le.mp (Char.utf8Size_eq_one_iff.mp hone)
  refine Char.ext (UInt32.toNat_inj.mp ?_)
  change c.val.toNat = 13
  omega

/-! ## Carriage returns -/

/-- One trailing CR less. -/
def stripCr (line : Bytes) : Bytes := if line.getLast? = some carriageReturn then line.dropLast else line

/-- The text without one trailing CR. -/
def dropCr (text : String) : String :=
  if text.toList.getLast? = some '\r' then String.ofList text.toList.dropLast else text

/-- `trim_end_matches('\r')`. -/
def trimEndCr (text : String) : String := String.ofList (text.toList.rdropWhile (· = '\r'))

theorem fromUtf8_stripCr {line : Bytes} {text : String} (h : fromUtf8 line = some text) :
    fromUtf8 (stripCr line) = some (dropCr text) := by
  have hline := fromUtf8_eq_some.mp h
  unfold stripCr dropCr
  rcases List.eq_nil_or_concat text.toList with hnil | ⟨chars, c, hchars⟩
  · rw [hnil] at hline ⊢
    simp only [List.flatMap_nil] at hline
    subst hline
    simpa using h
  · rw [List.concat_eq_append] at hchars
    have hencoded : line = chars.flatMap String.utf8EncodeChar ++ String.utf8EncodeChar c := by
      rw [hline, hchars, List.flatMap_append, List.flatMap_singleton]
    have hne : String.utf8EncodeChar c ≠ [] := by
      intro hnil
      have hlength := String.length_utf8EncodeChar c
      rw [hnil] at hlength
      exact absurd hlength.symm (Nat.ne_of_gt c.utf8Size_pos)
    have hlast : line.getLast? = (String.utf8EncodeChar c).getLast? := by
      rw [hencoded, List.getLast?_append_of_ne_nil _ hne]
    rw [hchars, List.getLast?_concat]
    by_cases hc : c = '\r'
    · subst hc
      have hcr : String.utf8EncodeChar '\r' = [carriageReturn] := by decide
      rw [if_pos (by rw [hlast, hcr]; rfl), if_pos rfl, hencoded, hcr, List.dropLast_concat, List.dropLast_concat]
      exact fromUtf8_ofList chars
    · rw [if_neg (fun hcr => hc (eq_cr_of_getLast? (hlast ▸ hcr))), if_neg (by simpa using hc)]
      exact h

end Transport
end Syllog
