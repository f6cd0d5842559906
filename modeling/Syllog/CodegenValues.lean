import Syllog.Codegen
import Syllog.InterpTypes
/-!
# CodegenValues — how words stand for values

`encode` is the word a MIR value becomes: a reference is its referent, an aggregate its discriminant.  On operands of one
declared type each operator of the back end computes the word of what the interpreter computes (`binary_apply`), and a
division that fails in one fails in the other (`divide_fails`).
-/
namespace Syllog
namespace Codegen

open Mir Interp Runs
open Wasm hiding Trap Frame step

def encode : Value → Word
  | .reference v   => encode v
  | .unit          => 0
  | .bool b        => truth b
  | .i64 v         => v.toBitVec
  | .u64 v         => v.toBitVec
  | .string _      => 0
  | .aggregate d _ => d.toBitVec

/-- The word a scalar result is compared with; other results have none. -/
def bits : RuntimeValue → Option Word
  | .unit   => some 0
  | .bool b => some (truth b)
  | .i64 v  => some v.toBitVec
  | .u64 v  => some v.toBitVec
  | _       => none

theorem bits_intoRuntime {v : Value} {ty : MirType} (h : HasType .shallow v ty)
    (hty : ty = .unit ∨ ty = .bool ∨ ty = .i64 ∨ ty = .u64) : bits v.intoRuntime = some (encode v) := by
  rcases hty with rfl | rfl | rfl | rfl
  · cases v <;> simp_all [HasType, Value.intoRuntime, bits, encode]
  · obtain ⟨b, rfl⟩ := h.bool_inv
    rfl
  · obtain ⟨n, rfl⟩ := h.i64_inv
    rfl
  · obtain ⟨n, rfl⟩ := h.u64_inv
    rfl

theorem truth_injective {a b : Bool} (h : truth a = truth b) : a = b := by
  cases a <;> cases b <;> first | rfl | exact absurd h (by decide)

/-- **Values of one type without strings and fields have distinct words.** -/
theorem encode_injective : ∀ {ty : MirType} {a b : Value}, supportedAbiType ty = .ok () → HasType .flat a ty →
    HasType .flat b ty → encode a = encode b → a = b
  | .reference mutable inner, a, b, hty, ha, hb, h => by
    cases a <;> simp [HasType] at ha
    cases b <;> simp [HasType] at hb
    have hinner : supportedAbiType inner = .ok () := hty
    rw [encode_injective hinner ha hb h]
  | .unit, a, b, _, ha, hb, _ => by
    cases a <;> simp [HasType] at ha
    cases b <;> simp [HasType] at hb
    rfl
  | .bool, a, b, _, ha, hb, h => by
    obtain ⟨x, rfl⟩ := ha.bool_inv
    obtain ⟨y, rfl⟩ := hb.bool_inv
    rw [truth_injective h]
  | .i64, a, b, _, ha, hb, h => by
    obtain ⟨x, rfl⟩ := ha.i64_inv
    obtain ⟨y, rfl⟩ := hb.i64_inv
    rw [Int64.toBitVec_inj.1 h]
  | .u64, a, b, _, ha, hb, h => by
    obtain ⟨x, rfl⟩ := ha.u64_inv
    obtain ⟨y, rfl⟩ := hb.u64_inv
    rw [UInt64.toBitVec_inj.1 h]
  | .string, _, _, hty, _, _, _ => by cases hty
  | .aggregate id, a, b, _, ha, hb, h => by
    obtain ⟨d, fields, rfl⟩ := ha.aggregate_inv
    obtain ⟨d', fields', rfl⟩ := hb.aggregate_inv
    rw [show fields = [] from ha.1 rfl, show fields' = [] from hb.1 rfl, UInt64.toBitVec_inj.1 h]

/-! ## Operators -/

theorem encode_checkedU64 {t : Trap} {n : Int} {v : Value} (h : checkedU64 t n = .ok v) :
    encode v = BitVec.ofInt 64 n := by
  obtain ⟨h0, -, rfl⟩ := checkedU64_ok h
  obtain ⟨k, rfl⟩ := Int.eq_ofNat_of_zero_le h0
  rfl

theorem encode_checkedI64 {t : Trap} {n : Int} {v : Value} (h : checkedI64 t n = .ok v) :
    encode v = BitVec.ofInt 64 n := by
  obtain ⟨-, -, rfl⟩ := checkedI64_ok h
  exact Int64.toBitVec_ofInt n

theorem ofInt_sub (x y : Int) : BitVec.ofInt 64 (x - y) = BitVec.ofInt 64 x - BitVec.ofInt 64 y := by
  rw [Int.sub_eq_add_neg, BitVec.ofInt_add, BitVec.ofInt_neg, BitVec.sub_eq_add_neg]

theorem ofInt_toNat (a : UInt64) : BitVec.ofInt 64 a.toNat = a.toBitVec := by
  show BitVec.ofInt 64 (a.toBitVec.toNat : Int) = a.toBitVec
  rw [BitVec.ofInt_natCast, BitVec.ofNat_toNat, BitVec.setWidth_eq]

theorem ofInt_toInt (a : Int64) : BitVec.ofInt 64 a.toInt = a.toBitVec := BitVec.ofInt_toInt

/-- A quotient that fits is the word the signed division computes. -/
theorem sdiv_eq_ofInt (a b : Word) : a.sdiv b = BitVec.ofInt 64 (a.toInt.tdiv b.toInt) := by
  apply BitVec.eq_of_toInt_eq
  rw [BitVec.toInt_sdiv, BitVec.toInt_ofInt]

theorem tdiv_le (a b : Int64) : a.toInt.tdiv b.toInt ≤ 2 ^ 63 ∧ -2 ^ 63 ≤ a.toInt.tdiv b.toInt := by
  have hn := Int.natAbs_tdiv_le_natAbs a.toInt b.toInt
  have h1 : a.toInt < 2 ^ 63 := BitVec.toInt_lt
  have h2 : -2 ^ 63 ≤ a.toInt := BitVec.le_toInt a.toBitVec
  omega

/-- **The operator of the back end computes the word of the interpreter's result.** -/
theorem binary_apply {operator : BinaryOp} {a b v : Value} {ty : MirType} (ha : HasType .shallow a ty)
    (heq : operator = .equal → encode a = encode b → a = b) (h : binary operator a b = .ok v) :
    (binaryInstruction operator (some ty == some .u64)).apply (encode a) (encode b) = .ok (encode v) := by
  unfold binary at h
  split at h
  · rw [ha.of_u64, encode_checkedU64 h, BitVec.ofInt_add, ofInt_toNat, ofInt_toNat]
    rfl
  · rw [ha.of_u64, encode_checkedU64 h, ofInt_sub, ofInt_toNat, ofInt_toNat]
    rfl
  · rw [ha.of_u64, encode_checkedU64 h, BitVec.ofInt_mul, ofInt_toNat, ofInt_toNat]
    rfl
  · rename_i x y
    split at h
    · cases h
    · rename_i hy
      cases h
      rw [ha.of_u64]
      have hy' : y.toBitVec ≠ 0 := fun e => hy (UInt64.toBitVec_inj.1 e)
      simp only [binaryInstruction, Numeric.apply, encode]
      exact if_neg hy'
  · rw [ha.of_i64, encode_checkedI64 h, BitVec.ofInt_add, ofInt_toInt, ofInt_toInt]
    rfl
  · rw [ha.of_i64, encode_checkedI64 h, ofInt_sub, ofInt_toInt, ofInt_toInt]
    rfl
  · rw [ha.of_i64, encode_checkedI64 h, BitVec.ofInt_mul, ofInt_toInt, ofInt_toInt]
    rfl
  · rename_i x y
    split at h
    · cases h
    · rename_i hy
      have hfit := (checkedI64_ok h).2.1
      rw [ha.of_i64, encode_checkedI64 h]
      have hy' : y.toBitVec ≠ 0 := fun e => hy (Int64.toBitVec_inj.1 e)
      have hne : x.toInt.tdiv y.toInt ≠ 2 ^ 63 := by omega
      simp only [binaryInstruction, Numeric.apply, encode, hy', if_false]
      rw [sdiv_eq_ofInt]
      exact if_neg hne
  · cases h
    simp only [binaryInstruction, Numeric.apply, encode]
    by_cases hab : a = b
    · simp [hab]
    · have hne : encode a ≠ encode b := fun e => hab (heq rfl e)
      simp [hab, hne]
  · rename_i x y
    cases h
    rw [ha.of_u64]
    rfl
  · rename_i x y
    cases h
    rw [ha.of_i64]
    simp [binaryInstruction, Numeric.apply, encode, Int64.lt_iff_toBitVec_slt]
  · rename_i x y
    cases h
    cases x <;> cases y <;> rfl
  · rename_i x y
    cases h
    cases x <;> cases y <;> rfl
  · cases h

/-- **A division the interpreter rejects is one the back end's instruction traps on.** -/
theorem divide_fails {a b : Value} {ty : MirType} {e : Fault} (ha : HasType .shallow a ty) (hb : HasType .shallow b ty)
    (hty : ty = .i64 ∨ ty = .u64) (h : binary .divide a b = .error e) :
    ∃ t, (binaryInstruction .divide (some ty == some .u64)).apply (encode a) (encode b) = .error t := by
  rcases hty with rfl | rfl
  · obtain ⟨x, rfl⟩ := ha.i64_inv
    obtain ⟨y, rfl⟩ := hb.i64_inv
    simp only [binary] at h
    by_cases hy : y = 0
    · subst hy
      exact ⟨.divideByZero, rfl⟩
    · rw [if_neg hy] at h
      unfold checkedI64 at h
      split at h
      · cases h
      · rename_i hfit
        have hle := tdiv_le x y
        have hov : x.toInt.tdiv y.toInt = 2 ^ 63 := by omega
        have hy' : y.toBitVec ≠ 0 := fun e => hy (Int64.toBitVec_inj.1 e)
        refine ⟨.integerOverflow, ?_⟩
        simp only [binaryInstruction, Numeric.apply, encode, hy', if_false]
        exact if_pos hov
  · obtain ⟨x, rfl⟩ := ha.u64_inv
    obtain ⟨y, rfl⟩ := hb.u64_inv
    simp only [binary] at h
    by_cases hy : y = 0
    · subst hy
      exact ⟨.divideByZero, rfl⟩
    · rw [if_neg hy] at h
      cases h

theorem switchValue_encode {v : Value} {n : Nat} (h : switchValue v = .ok n) :
    encode v = BitVec.ofNat 64 n ∧ n < 2 ^ 64 := by
  cases v with
  | bool b =>
    cases h
    cases b <;> exact ⟨rfl, by decide⟩
  | u64 x =>
    cases h
    rw [← BitVec.ofInt_natCast, ofInt_toNat]
    exact ⟨rfl, x.toBitVec.isLt⟩
  | i64 x =>
    simp only [switchValue] at h
    split at h
    · cases h
    · rename_i hx
      cases h
      obtain ⟨k, hk⟩ := Int.eq_ofNat_of_zero_le (Int.not_lt.1 hx)
      have hlt : x.toInt < 2 ^ 63 := BitVec.toInt_lt
      refine ⟨?_, by omega⟩
      rw [hk, Int.toNat_natCast, ← BitVec.ofInt_natCast, ← hk]
      exact (ofInt_toInt x).symm
  | _ => cases h

end Codegen
end Syllog
