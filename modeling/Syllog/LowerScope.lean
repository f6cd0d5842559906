import Syllog.InterpTypes
import Syllog.LowerStatic
/-!
# LowerScope — identities and values of a program

Where declarations and bindings have identities of their own, a function's variables are what they are declared as, and no
variable is a variant.  `Inhabits` is the type of a value: a variant of an enum carries its fields, or none of them where
the program names it without.
-/
namespace Syllog
namespace Lower

open Mir Hir
open Interp hiding Trap

/-! ## Values of a type -/

/-- **The values of a type.**  Fields of a type the lowering does not support are not looked at. -/
inductive Inhabits (p : HirProgram) : Value → MirType → Prop
  | unit : Inhabits p .unit .unit
  | bool (b : Bool) : Inhabits p (.bool b) .bool
  | i64 (n : Int64) : Inhabits p (.i64 n) .i64
  | u64 (n : UInt64) : Inhabits p (.u64 n) .u64
  | string (s : String) : Inhabits p (.string s) .string
  | reference {v : Value} {ty : MirType} (mutable : Bool) (inner : Inhabits p v ty) :
      Inhabits p (.reference v) (.reference mutable ty)
  | variant {d : HirDefinition} {variants : List HirVariant} {i : Nat} {variant : HirVariant} {fields : List Value}
      (definition : d ∈ p.definitions) (kind : d.kind = .enum variants) (index : variants[i]? = some variant)
      (count : fields = [] ∨ fields.length = variant.fields.length)
      (typed : ∀ (k : Nat) (v : Value) (rty : ResolvedType) (ty : MirType), fields[k]? = some v →
        variant.fields[k]? = some rty → (ProgramIndex.new p).lowerType rty = some ty → Inhabits p v ty) :
      Inhabits p (.aggregate (discriminantAt i) fields) (.aggregate d.id)
  | record {d : HirDefinition} {members : List HirMember} {discriminant : UInt64} {fields : List Value}
      (definition : d ∈ p.definitions) (kind : d.kind = .struct members ∨ d.kind = .state members)
      (count : fields.length = members.length)
      (typed : ∀ (k : Nat) (v : Value) (member : HirMember) (ty : MirType), fields[k]? = some v →
        members[k]? = some member → (ProgramIndex.new p).lowerType member.ty = some ty → Inhabits p v ty) :
      Inhabits p (.aggregate discriminant fields) (.aggregate d.id)

/-- The aggregates of a type. -/
def Admits (p : HirProgram) (id : DefId) (d : UInt64) (fields : List Value) : Prop :=
  Inhabits p (.aggregate d fields) (.aggregate id)

theorem hasType_of_inhabits {p : HirProgram} {v : Value} {ty : MirType} (h : Inhabits p v ty) :
    HasType (.within (Admits p)) v ty := by
  induction h with
  | unit => trivial
  | bool => trivial
  | i64 => trivial
  | u64 => trivial
  | string => trivial
  | reference mutable _ ih => exact fun _ => ih
  | variant definition kind index count typed =>
    refine ⟨fun hf => (by cases hf), fun ok hok => ?_⟩
    cases hok
    exact .variant definition kind index count typed
  | record definition kind count typed =>
    refine ⟨fun hf => (by cases hf), fun ok hok => ?_⟩
    cases hok
    exact .record definition kind count typed

/-! ## Lookups -/

section
variable {κ α : Type} [DecidableEq κ] {key : κ} {v : α}

theorem mem_of_lookupKey {entries : List (κ × α)} (h : lookupKey key entries = some v) : (key, v) ∈ entries := by
  obtain ⟨entry, hfind, rfl⟩ := Option.map_eq_some_iff.1 h
  have hkey := List.find?_some hfind
  rw [decide_eq_true_eq] at hkey
  subst hkey
  exact List.mem_of_find?_eq_some hfind

theorem lookupKey_of_mem {entries : List (κ × α)} (hnd : (entries.map Prod.fst).Nodup) (h : (key, v) ∈ entries) :
    lookupKey key entries = some v := by
  induction entries with
  | nil => cases h
  | cons entry entries ih =>
    obtain ⟨k, w⟩ := entry
    rw [List.map_cons, List.nodup_cons] at hnd
    rw [lookupKey_cons]
    rcases List.mem_cons.1 h with heq | h
    · cases heq
      exact if_pos rfl
    · have hne : k ≠ key := fun heq => hnd.1 (List.mem_map.2 ⟨(key, v), h, heq.symm⟩)
      rw [if_neg hne]
      exact ih hnd.2 h

end

/-! ## The program index -/

theorem mem_insertSorted {α : Type} {key : DefId} {value : α} {entry : DefId × α} :
    ∀ {entries : List (DefId × α)}, entry ∈ insertSorted key value entries → entry = (key, value) ∨ entry ∈ entries
  | [], h => by
    rw [insertSorted, List.mem_singleton] at h
    exact .inl h
  | (k, v) :: rest, h => by
    rw [insertSorted] at h
    split at h
    · rcases List.mem_cons.1 h with h | h
      · exact .inl h
      · exact .inr (List.mem_cons_of_mem _ h)
    · split at h
      · exact List.mem_cons.1 h
      · rcases List.mem_cons.1 h with h | h
        · exact .inr (h ▸ List.mem_cons_self)
        · exact (mem_insertSorted h).imp_right (List.mem_cons_of_mem _)

theorem mem_insertVariants {id : DefId} {entry : DefId × (DefId × UInt64)} :
    ∀ {variants : List HirVariant} {index : Nat} {entries : List (DefId × (DefId × UInt64))},
    entry ∈ ProgramIndex.insertVariants id index variants entries → entry ∈ entries ∨
      ∃ i variant, variants[i]? = some variant ∧ entry = (variant.id, (id, discriminantAt (index + i)))
  | [], _, _, h => by
    rw [ProgramIndex.insertVariants] at h
    exact .inl h
  | variant :: rest, index, entries, h => by
    rw [ProgramIndex.insertVariants] at h
    rcases mem_insertVariants h with h | ⟨i, w, hw, rfl⟩
    · rcases List.mem_cons.1 h with rfl | h
      · exact .inr ⟨0, variant, rfl, rfl⟩
      · exact .inl h
    · refine .inr ⟨i + 1, w, hw, ?_⟩
      rw [show index + 1 + i = index + (i + 1) by omega]

theorem mem_insertDefinition {ix : ProgramIndex} {d : HirDefinition} {entry : DefId × (DefId × UInt64)}
    (h : entry ∈ (ix.insertDefinition d).variants) : entry ∈ ix.variants ∨
      ∃ variants i variant, d.kind = .enum variants ∧ variants[i]? = some variant ∧
        entry = (variant.id, (d.id, discriminantAt i)) := by
  unfold ProgramIndex.insertDefinition at h
  split at h
  · exact .inl h
  · exact .inl h
  · rename_i variants hk
    rcases mem_insertVariants h with h | ⟨i, variant, hi, rfl⟩
    · exact .inl h
    · exact .inr ⟨variants, i, variant, hk, hi, by rw [Nat.zero_add]⟩
  · exact .inl h

/-- An entry of the index is a variant of the program. -/
def IsVariant (p : HirProgram) (entry : DefId × (DefId × UInt64)) : Prop :=
  ∃ d variants i variant, d ∈ p.definitions ∧ d.kind = .enum variants ∧ variants[i]? = some variant ∧
    entry = (variant.id, (d.id, discriminantAt i))

theorem isVariant_of_mem {p : HirProgram} {entry : DefId × (DefId × UInt64)}
    (h : entry ∈ (ProgramIndex.new p).variants) : IsVariant p entry := by
  have hsorted : ∀ (ds : List HirDefinition) (entries : List (DefId × HirDefinition)),
      (∀ d ∈ ds, d ∈ p.definitions) → (∀ e ∈ entries, e.2 ∈ p.definitions) →
      ∀ e ∈ ds.foldl (fun entries d => insertSorted d.id d entries) entries, e.2 ∈ p.definitions := by
    intro ds
    induction ds with
    | nil => exact fun entries _ he => he
    | cons d ds ih =>
      intro entries hds hentries
      refine ih _ (fun d' hd' => hds d' (List.mem_cons_of_mem _ hd')) (fun e he => ?_)
      rcases mem_insertSorted he with rfl | he
      · exact hds d List.mem_cons_self
      · exact hentries e he
  have hfold : ∀ (es : List (DefId × HirDefinition)) (ix : ProgramIndex), (∀ e ∈ es, e.2 ∈ p.definitions) →
      (∀ e ∈ ix.variants, IsVariant p e) →
      ∀ e ∈ (es.foldl (fun ix entry => ix.insertDefinition entry.2) ix).variants, IsVariant p e := by
    intro es
    induction es with
    | nil => exact fun ix _ hix => hix
    | cons e es ih =>
      intro ix hes hix
      refine ih _ (fun e' he' => hes e' (List.mem_cons_of_mem _ he')) (fun e' he' => ?_)
      rcases mem_insertDefinition he' with he' | ⟨variants, i, variant, hk, hi, rfl⟩
      · exact hix e' he'
      · exact ⟨e.2, variants, i, variant, hes e List.mem_cons_self, hk, hi, rfl⟩
  exact hfold _ ⟨[], []⟩ (hsorted p.definitions [] (fun _ hd => hd) (fun _ he => by cases he)) (fun _ he => by cases he)
    entry h

/-- A variant named without its fields is a value of its enum. -/
theorem admits_variant {p : HirProgram} {d id : DefId} {k : UInt64}
    (h : lookupKey d (ProgramIndex.new p).variants = some (id, k)) : Admits p id k [] := by
  obtain ⟨e, variants, i, variant, he, hkind, hi, heq⟩ := isVariant_of_mem (mem_of_lookupKey h)
  cases heq
  exact .variant he hkind hi (.inl rfl) (fun j v rty ty hv => by simp at hv)

/-! ## Identities -/

/-- The identities a definition introduces: its own, its variants', its parameters' and variables'. -/
def identitiesOf (ix : ProgramIndex) (d : HirDefinition) : List DefId :=
  d.id :: match d.kind with
    | .enum variants => variants.map (·.id)
    | .function f    => (f.declared ix).map Prod.fst ++ f.binders
    | _              => []

def identities (p : HirProgram) : List DefId := p.definitions.flatMap (identitiesOf (ProgramIndex.new p))

theorem mem_functions {p : HirProgram} {d : HirDefinition} {f : HirFunction} :
    (d, f) ∈ HirProgram.functions p ↔ d ∈ p.definitions ∧ d.kind = .function f := by
  unfold HirProgram.functions
  rw [List.mem_filterMap]
  constructor
  · rintro ⟨d', hd', h⟩
    split at h
    · rename_i f' hk
      cases h
      exact ⟨hd', hk⟩
    · cases h
  · rintro ⟨hd, hk⟩
    exact ⟨d, hd, by rw [hk]⟩

theorem identities_disjoint {p : HirProgram} (hnd : (identities p).Nodup) {d e : HirDefinition} (hd : d ∈ p.definitions)
    (he : e ∈ p.definitions) (hne : d ≠ e) :
    List.Disjoint (identitiesOf (ProgramIndex.new p) d) (identitiesOf (ProgramIndex.new p) e) := by
  have hsymm : Std.Symm (Function.onFun List.Disjoint (identitiesOf (ProgramIndex.new p))) := ⟨fun _ _ h => h.symm⟩
  exact (List.nodup_flatMap.1 hnd).2.forall hd he hne

section
variable {p : HirProgram} {d : HirDefinition} {f : HirFunction} (hnd : (identities p).Nodup)
  (hf : (d, f) ∈ HirProgram.functions p)
include hnd hf

theorem declared_nodup : ((f.declared (ProgramIndex.new p)).map Prod.fst ++ f.binders).Nodup := by
  obtain ⟨hd, hk⟩ := mem_functions.1 hf
  have h := (List.nodup_flatMap.1 hnd).1 d hd
  unfold identitiesOf at h
  rw [hk] at h
  exact (List.nodup_cons.1 h).2

/-- A variable has the type it is declared with. -/
theorem lookup_declared {entry : DefId × MirType} (h : entry ∈ f.declared (ProgramIndex.new p)) :
    lookupKey entry.1 (functionScope (ProgramIndex.new p) f).types = some entry.2 :=
  lookupKey_of_mem (List.nodup_append.1 (declared_nodup hnd hf)).1 h

theorem lookup_binder {b : DefId} (h : b ∈ f.binders) :
    lookupKey b (functionScope (ProgramIndex.new p) f).types = none := by
  cases hl : lookupKey b (functionScope (ProgramIndex.new p) f).types with
  | none => rfl
  | some ty =>
    have hmem : b ∈ (f.declared (ProgramIndex.new p)).map Prod.fst := List.mem_map.2 ⟨_, mem_of_lookupKey hl, rfl⟩
    exact absurd rfl ((List.nodup_append.1 (declared_nodup hnd hf)).2.2 b hmem b h)

theorem functionScope_names : Scoped (functionScope (ProgramIndex.new p) f) := by
  intro x ty hx
  cases hv : lookupKey x (functionScope (ProgramIndex.new p) f).ix.variants with
  | none => rfl
  | some entry =>
    obtain ⟨e, variants, i, variant, he, hkind, hi, heq⟩ := isVariant_of_mem (mem_of_lookupKey hv)
    cases heq
    obtain ⟨hd, hk⟩ := mem_functions.1 hf
    have hne : d ≠ e := fun hde => by
      rw [hde, hkind] at hk
      cases hk
    have hx' : variant.id ∈ identitiesOf (ProgramIndex.new p) d := by
      unfold identitiesOf
      rw [hk]
      refine List.mem_cons_of_mem _ (List.mem_append_left _ (List.mem_map.2 ⟨_, mem_of_lookupKey hx, rfl⟩))
    have hv' : variant.id ∈ identitiesOf (ProgramIndex.new p) e := by
      unfold identitiesOf
      rw [hkind]
      exact List.mem_cons_of_mem _ (List.mem_map.2 ⟨variant, List.mem_of_getElem? hi, rfl⟩)
    exact absurd hv' (identities_disjoint hnd hd he hne hx')

theorem functionScope_lets : LetsDeclared (functionScope (ProgramIndex.new p) f) f.body := by
  intro entry he
  refine lookup_declared hnd hf ?_
  unfold HirFunction.declared
  exact List.mem_append_left _ (List.mem_append_right _ he)

theorem functionScope_blocks : BlocksDeclared (functionScope (ProgramIndex.new p) f) (walkStatements f.body) := by
  intro e he entry hentry
  refine lookup_declared hnd hf ?_
  unfold HirFunction.declared
  exact List.mem_append_right _ (List.mem_flatMap.2 ⟨e, he, hentry⟩)

end

end Lower
end Syllog
