import Syllog.LowerStatic
import Syllog.PackageIds
/-!
# MirTypes — the table of types that MIR lowering reads

A resolved type holds a bare name, and `ProgramIndex` is one table over all modules, filled in the order of the identities: the
name of a type stands for the last definition of the program that carries it.  Which definition a module binds the name to is
another matter; the two agree exactly where the bound definition carries the name itself and no later one does.
-/
namespace Syllog

namespace Hir

/-! ## The types of a function -/

mutual
/-- The struct, enum and state types inside a type. -/
def ResolvedType.nominals : ResolvedType → List ResolvedType
  | .struct name                => [.struct name]
  | .enum name                  => [.enum name]
  | .state name                 => [.state name]
  | .reference _ _ inner        => inner.nominals
  | .option inner               => inner.nominals
  | .result ok err              => ok.nominals ++ err.nominals
  | .array item                 => item.nominals
  | .tuple items                => nominalsAll items
  | .function parameters result => nominalsAll parameters ++ result.nominals
  | _                           => []
def nominalsAll : List ResolvedType → List ResolvedType
  | []      => []
  | t :: ts => t.nominals ++ nominalsAll ts
end

def ResolvedType.nominalName : ResolvedType → Option String
  | .struct name => some name
  | .enum name   => some name
  | .state name  => some name
  | _            => none

/-- What is inside a type is a name. -/
def Nominal (t : ResolvedType) : Prop := ∃ name, t.nominalName = some name

mutual
theorem nominals_nominal : ∀ (ty : ResolvedType), ∀ t ∈ ty.nominals, Nominal t
  | .struct name, _, h                => ⟨name, by rw [List.mem_singleton.mp h]; rfl⟩
  | .enum name, _, h                  => ⟨name, by rw [List.mem_singleton.mp h]; rfl⟩
  | .state name, _, h                 => ⟨name, by rw [List.mem_singleton.mp h]; rfl⟩
  | .reference _ _ inner, t, h        => nominals_nominal inner t h
  | .option inner, t, h               => nominals_nominal inner t h
  | .result ok err, t, h              => (List.mem_append.mp h).elim (nominals_nominal ok t) (nominals_nominal err t)
  | .array item, t, h                 => nominals_nominal item t h
  | .tuple items, t, h                => nominalsAll_nominal items t h
  | .function parameters result, t, h =>
    (List.mem_append.mp h).elim (nominalsAll_nominal parameters t) (nominals_nominal result t)
theorem nominalsAll_nominal : ∀ (tys : List ResolvedType), ∀ t ∈ nominalsAll tys, Nominal t
  | ty :: tys, t, h => (List.mem_append.mp h).elim (nominals_nominal ty t) (nominalsAll_nominal tys t)
end

mutual
/-- The types that occur in an expression: its own, those of its parts and those of the `let`s inside. -/
def TypedExpr.types : TypedExpr → List ResolvedType
  | .mk kind ty _ => ty :: kind.types
def HirExprKind.types : HirExprKind → List ResolvedType
  | .borrow _ operand      => operand.types
  | .await operand         => operand.types
  | .literal _             => []
  | .reference _           => []
  | .array items           => itemTypes items
  | .call callee arguments => callee.types ++ itemTypes arguments
  | .field base _          => base.types
  | .unary _ operand       => operand.types
  | .binary _ left right   => left.types ++ right.types
  | .match_ value arms     => value.types ++ armTypes arms
  | .block statements      => statementTypes statements
def itemTypes : List TypedExpr → List ResolvedType
  | []      => []
  | e :: es => e.types ++ itemTypes es
def armTypes : List HirMatchArm → List ResolvedType
  | []                         => []
  | .mk _ guard body _ :: arms => optionTypes guard ++ (body.types ++ armTypes arms)
def optionTypes : Option TypedExpr → List ResolvedType
  | none       => []
  | some value => value.types
def statementTypes : List HirStatement → List ResolvedType
  | []                       => []
  | .let_ _ ty value :: rest => ty :: (value.types ++ statementTypes rest)
  | .return_ value :: rest   => optionTypes value ++ statementTypes rest
  | .expression e :: rest    => e.types ++ statementTypes rest
end

/-- The types that occur in a function. -/
def HirFunction.types (f : HirFunction) : List ResolvedType :=
  f.parameters.map (·.ty) ++ f.result :: statementTypes f.body

end Hir

namespace Lower

open Hir Mir

/-! ## Definitions in the order of their identities -/

theorem lt_iff_lex {a b : DefId} : a < b ↔ a.module < b.module ∨ (a.module = b.module ∧ a.index < b.index) :=
  Prod.Lex.lt_iff (x := toLex (a.module, a.index)) (y := toLex (b.module, b.index))

section
variable {α : Type} {key : DefId} {value : α}

theorem insertSorted_perm : ∀ {l : List (DefId × α)}, key ∉ l.map (·.1) → (insertSorted key value l).Perm ((key, value) :: l)
  | [], _ => .refl _
  | (k, v) :: l, h => by
    rw [List.map_cons, List.mem_cons, not_or] at h
    unfold insertSorted
    rw [if_neg h.1]
    split_ifs
    · exact .refl _
    · exact ((insertSorted_perm h.2).cons _).trans (.swap _ _ _)

theorem insertSorted_sorted : ∀ {l : List (DefId × α)}, key ∉ l.map (·.1) → l.Pairwise (fun a b => a.1 < b.1) →
    (insertSorted key value l).Pairwise (fun a b => a.1 < b.1)
  | [], _, _ => List.pairwise_singleton _ _
  | (k, v) :: l, hkey, h => by
    rw [List.map_cons, List.mem_cons, not_or] at hkey
    rw [List.pairwise_cons] at h
    unfold insertSorted
    rw [if_neg hkey.1]
    split_ifs with hlt
    · have hkv : key < k := lt_iff_lex.mpr hlt
      refine .cons (fun e he => ?_) (.cons h.1 h.2)
      rcases List.mem_cons.mp he with rfl | he
      · exact hkv
      · exact hkv.trans (h.1 e he)
    · have hkv : k < key := lt_of_le_of_ne (not_lt.mp fun h => hlt (lt_iff_lex.mp h)) fun h => hkey.1 h.symm
      refine .cons (fun e he => ?_) (insertSorted_sorted hkey.2 h.2)
      rcases List.mem_cons.mp ((insertSorted_perm hkey.2).mem_iff.mp he) with rfl | he
      · exact hkv
      · exact h.1 e he

end

/-- The definitions of a program in the order `ProgramIndex.new` enters them. -/
def sortedDefinitions (ds : List HirDefinition) : List (DefId × HirDefinition) :=
  ds.foldl (fun entries d => insertSorted d.id d entries) []

theorem sortedDefinitions_spec {ds : List HirDefinition} (hnodup : (ds.map (·.id)).Nodup) :
    (sortedDefinitions ds).Perm (ds.map fun d => (d.id, d)) ∧ (sortedDefinitions ds).Pairwise (fun a b => a.1 < b.1) := by
  induction ds using List.reverseRecOn with
  | nil => exact ⟨.refl _, .nil⟩
  | append_singleton ds d ih =>
    rw [List.map_append, List.nodup_append] at hnodup
    obtain ⟨hperm, hsorted⟩ := ih hnodup.1
    have hout : d.id ∉ (sortedDefinitions ds).map (·.1) := fun hmem => by
      obtain ⟨e, he, heq⟩ := List.mem_map.mp hmem
      obtain ⟨d', hd', rfl⟩ := List.mem_map.mp (hperm.mem_iff.mp he)
      exact hnodup.2.2 _ (List.mem_map_of_mem hd') _ (List.mem_map_of_mem List.mem_cons_self) heq
    have hsnoc : sortedDefinitions (ds ++ [d]) = insertSorted d.id d (sortedDefinitions ds) := by
      unfold sortedDefinitions
      rw [List.foldl_append]
      rfl
    rw [hsnoc]
    refine ⟨?_, insertSorted_sorted hout hsorted⟩
    rw [List.map_append]
    exact (insertSorted_perm hout).trans ((hperm.cons _).trans (@List.perm_append_comm _ [(d.id, d)] _))

theorem mem_sortedDefinitions {ds : List HirDefinition} (hnodup : (ds.map (·.id)).Nodup) {e : DefId × HirDefinition} :
    e ∈ sortedDefinitions ds ↔ e.2 ∈ ds ∧ e.1 = e.2.id := by
  rw [(sortedDefinitions_spec hnodup).1.mem_iff]
  constructor
  · intro h
    obtain ⟨d, hd, rfl⟩ := List.mem_map.mp h
    exact ⟨hd, rfl⟩
  · rintro ⟨hd, hid⟩
    exact List.mem_map.mpr ⟨e.2, hd, by rw [← hid]⟩

/-! ## The table of types -/

/-- What a definition enters into the table. -/
def typeEntry (e : DefId × HirDefinition) : Option (String × DefId) :=
  if e.2.kind.isType then some (e.2.name, e.2.id) else none

theorem foldl_types : ∀ (l : List (DefId × HirDefinition)) (ix : ProgramIndex),
    (l.foldl (fun ix entry => ix.insertDefinition entry.2) ix).types = (l.filterMap typeEntry).reverse ++ ix.types
  | [], _ => rfl
  | e :: l, ix => by
    rw [List.foldl_cons, foldl_types l, List.filterMap_cons, typeEntry]
    unfold ProgramIndex.insertDefinition
    cases e.2.kind <;> simp [HirDefinitionKind.isType]

/-- In a list in the order of the identities, the last entry of a name is found. -/
theorem lookupKey_reverse {name : String} {id : DefId} {l : List (String × DefId)} (hsorted : l.Pairwise (fun a b => a.2 < b.2)) :
    lookupKey name l.reverse = some id ↔ (name, id) ∈ l ∧ ∀ id', (name, id') ∈ l → id' ≤ id := by
  have hfound : ∀ id, lookupKey name l.reverse = some id → (name, id) ∈ l ∧ ∀ id', (name, id') ∈ l → id' ≤ id := by
    intro id h
    obtain ⟨e, he, rfl⟩ := Option.map_eq_some_iff.mp h
    obtain ⟨hname, before, after, hsplit, hbefore⟩ := List.find?_eq_some_iff_append.mp he
    have hname : e.1 = name := of_decide_eq_true hname
    subst hname
    refine ⟨List.mem_reverse.mp (List.mem_of_find?_eq_some he), fun id' hid' => ?_⟩
    have hmem := List.mem_reverse.mpr hid'
    rw [hsplit] at hmem
    rcases List.mem_append.mp hmem with hmem | hmem
    · have := hbefore _ hmem
      simp at this
    rcases List.mem_cons.mp hmem with heq | hmem
    · rw [← heq]
    · have hpairs : l.reverse.Pairwise fun a b => b.2 < a.2 := List.pairwise_reverse.mpr hsorted
      rw [hsplit] at hpairs
      exact le_of_lt ((List.pairwise_cons.mp (List.pairwise_append.mp hpairs).2.1).1 _ hmem)
  refine ⟨hfound id, fun ⟨hmem, hlast⟩ => ?_⟩
  have hsome : (l.reverse.find? fun e => e.1 = name).isSome = true :=
    List.find?_isSome.mpr ⟨_, List.mem_reverse.mpr hmem, decide_eq_true rfl⟩
  obtain ⟨e, he⟩ := Option.isSome_iff_exists.mp hsome
  have hget : lookupKey name l.reverse = some e.2 := congrArg (Option.map Prod.snd) he
  obtain ⟨hmem', hlast'⟩ := hfound e.2 hget
  rw [hget, le_antisymm (hlast e.2 hmem') (hlast' id hmem)]

theorem types_eq (p : HirProgram) :
    (ProgramIndex.new p).types = ((sortedDefinitions p.definitions).filterMap typeEntry).reverse := by
  refine (foldl_types (sortedDefinitions p.definitions) ⟨[], []⟩).trans ?_
  rw [List.append_nil]

/-- The name of a type stands for some type. -/
theorem exists_lookup_types {p : HirProgram} (hnodup : (p.definitions.map (·.id)).Nodup) {d : HirDefinition}
    (hd : d ∈ p.definitions) (htype : d.kind.isType = true) : ∃ id, lookupKey d.name (ProgramIndex.new p).types = some id := by
  have hmem : (d.name, d.id) ∈ (ProgramIndex.new p).types := by
    rw [types_eq, List.mem_reverse]
    exact List.mem_filterMap.mpr ⟨(d.id, d), (mem_sortedDefinitions hnodup).mpr ⟨hd, rfl⟩, by rw [typeEntry, if_pos htype]⟩
  have hsome : ((ProgramIndex.new p).types.find? fun e => e.1 = d.name).isSome = true :=
    List.find?_isSome.mpr ⟨_, hmem, decide_eq_true rfl⟩
  obtain ⟨e, he⟩ := Option.isSome_iff_exists.mp hsome
  exact ⟨e.2, congrArg (Option.map Prod.snd) he⟩

/-- **A name stands for the last type of the program that carries it.** -/
theorem lookup_types {p : HirProgram} (hnodup : (p.definitions.map (·.id)).Nodup) {name : String} {id : DefId} :
    lookupKey name (ProgramIndex.new p).types = some id ↔
      (∃ d ∈ p.definitions, d.kind.isType = true ∧ d.name = name ∧ d.id = id) ∧
        ∀ d ∈ p.definitions, d.kind.isType = true → d.name = name → d.id ≤ id := by
  have hmem : ∀ id, (name, id) ∈ (sortedDefinitions p.definitions).filterMap typeEntry ↔
      ∃ d ∈ p.definitions, d.kind.isType = true ∧ d.name = name ∧ d.id = id := by
    intro id
    rw [List.mem_filterMap]
    constructor
    · rintro ⟨e, he, hentry⟩
      unfold typeEntry at hentry
      split_ifs at hentry with htype
      cases hentry
      exact ⟨e.2, ((mem_sortedDefinitions hnodup).mp he).1, htype, rfl, rfl⟩
    · rintro ⟨d, hd, htype, rfl, rfl⟩
      exact ⟨(d.id, d), (mem_sortedDefinitions hnodup).mpr ⟨hd, rfl⟩, by rw [typeEntry, if_pos htype]⟩
  have hsorted : ((sortedDefinitions p.definitions).filterMap typeEntry).Pairwise (fun a b => a.2 < b.2) := by
    refine List.Pairwise.filterMap _ ?_ ((sortedDefinitions_spec hnodup).2.imp_of_mem (S := fun a b => a.2.id < b.2.id)
      fun {a b} ha hb hab => ?_)
    · intro a b hab x hx y hy
      unfold typeEntry at hx hy
      split_ifs at hx hy
      cases hx
      cases hy
      exact hab
    · rwa [((mem_sortedDefinitions hnodup).mp ha).2, ((mem_sortedDefinitions hnodup).mp hb).2] at hab
  rw [types_eq, lookupKey_reverse hsorted, hmem]
  refine and_congr_right fun _ => ⟨fun h d hd htype hname => h d.id ((hmem d.id).mpr ⟨d, hd, htype, hname, rfl⟩), ?_⟩
  intro h id' hid'
  obtain ⟨d, hd, htype, hname, rfl⟩ := (hmem id').mp hid'
  exact h d hd htype hname

theorem lowerType_nominal (ix : ProgramIndex) {t : ResolvedType} {name : String} (h : t.nominalName = some name) :
    ix.lowerType t = (lookupKey name ix.types).map .aggregate := by
  cases t with
  | struct n => cases h; rfl
  | enum n => cases h; rfl
  | state n => cases h; rfl
  | reference r m i => cases h
  | primitive q => cases h
  | option i => cases h
  | result ok err => cases h
  | array i => cases h
  | tuple is => cases h
  | function ps r => cases h
  | unit => cases h
  | unknown => cases h
  | error => cases h
  | integerLiteral => cases h
  | floatLiteral => cases h

end Lower

namespace Modules

/-- A struct, an enum or a state. -/
def ModuleDefinitionKind.isType : ModuleDefinitionKind → Bool
  | .struct => true
  | .enum   => true
  | .state  => true
  | _       => false

theorem definitionKind_isType (item : Ast.Item) : (definitionKind item).isType = item.isType := by cases item <;> rfl

def QualifiedDefId.toDefId (q : QualifiedDefId) : DefId := ⟨q.module, q.index⟩

theorem QualifiedDefId.toDefId_injective {q q' : QualifiedDefId} (h : q.toDefId = q'.toDefId) : q = q' := by
  cases q
  cases q'
  cases h
  rfl

theorem QualifiedDefId.toDefId_le {q q' : QualifiedDefId} : q.toDefId ≤ q'.toDefId ↔ q ≤ q' := Iff.rfl

end Modules

namespace Package

open Hir Ast Semantic Modules AstLower Lower

/-! ## The types of a package -/

/-- The last type of the package that carries the name. -/
def LastType (a : ModuleAnalysis) (name : String) (q : QualifiedDefId) : Prop :=
  (∃ m ∈ a.modules, ∃ e, m.definitions.get? name = some e ∧ e.kind.isType = true ∧ e.id = q) ∧
    ∀ m ∈ a.modules, ∀ e, m.definitions.get? name = some e → e.kind.isType = true → e.id ≤ q

/-- A property of the nominal types of a module's functions: of a type, its name and the definition the module binds it to. -/
def ForNominals (a : ModuleAnalysis) (p : HirProgram) (P : ResolvedType → String → QualifiedDefId → Prop) : Prop :=
  ∀ m ∈ a.modules, ∀ h ∈ p.modules, h.id = m.id → ∀ d ∈ h.definitions, ∀ f, d.kind = .function f →
    ∀ ty ∈ f.types, ∀ t ∈ ty.nominals, ∀ name, t.nominalName = some name → ∀ q, m.binding name = some q → P t name q

section
variable {asts : OrdMap String SourceFile} {analysis : ModuleAnalysis} {modules : ModuleMap} {s : LinkState} {p : HirProgram}

theorem LinkedFrom.nodup_ids (w : LinkedFrom asts analysis modules s p) : (p.definitions.map (·.id)).Nodup := by
  rw [List.map_eq_flatMap]
  refine w.nodup_of_ranges fun k h hh => ⟨0, h.definitions.length, ?_⟩
  rw [← List.map_eq_flatMap]
  obtain ⟨m, base, next, -, hpart⟩ := w.part_of_module hh
  refine List.ext_getElem (by simp [idRange]) fun i hi _ => ?_
  rw [List.length_map] at hi
  have hlength : i < (itemsIn (moduleIds (moduleSources asts)) k (moduleSources asts)).length := by
    rw [← List.length_map, hpart.defines.length_eq]
    exact hi
  obtain ⟨m', d, hd, hstands⟩ := w.stands_of_place hh (List.getElem?_eq_getElem hlength)
  have hget : h.definitions[i] = d := (List.getElem?_eq_some_iff.mp hd).2
  simp only [List.getElem_map, hget, (hstands.id_eq w).1]
  simp [idRange]

theorem LinkedFrom.mem_of_stands (w : LinkedFrom asts analysis modules s p) {k i : Nat} {m : ResolvedModule} {item : Item}
    {d : HirDefinition} (h : Stands asts analysis modules s k m i item d) : d ∈ p.definitions := by
  obtain ⟨h, hh, -, i, -, hd⟩ := w.declares_of_stands h
  exact List.mem_flatMap.mpr ⟨h, hh, List.mem_of_getElem? hd⟩

/-- The types of the program are those of its modules. -/
theorem LinkedFrom.type_iff (w : LinkedFrom asts analysis modules s p) {name : String} {id : DefId} :
    (∃ d ∈ p.definitions, d.kind.isType = true ∧ d.name = name ∧ d.id = id) ↔
      ∃ m ∈ analysis.modules, ∃ e, m.definitions.get? name = some e ∧ e.kind.isType = true ∧ e.id.toDefId = id := by
  rw [w.modules_eq]
  constructor
  · rintro ⟨d, hd, htype, rfl, rfl⟩
    obtain ⟨k, m, i, item, hstands⟩ := w.stands_of_mem hd
    obtain ⟨file, hi⟩ := hstands.place
    obtain ⟨_, _, _, _, _, hdefines⟩ := hstands.part
    refine ⟨m, mem_values_iff.mpr ⟨k, hstands.module⟩, moduleDefinition k i file item, ?_, ?_, (hstands.id_eq w).1.symm⟩
    · rw [hdefines.name]
      exact ((w.graph.definitions k m hstands.module).get_iff _ _).mpr ⟨i, _, hi, rfl, rfl⟩
    · exact (definitionKind_isType item).trans (hdefines.isType.symm.trans htype)
  · rintro ⟨m, hm, e, he, htype, rfl⟩
    obtain ⟨k, hk⟩ := mem_values_iff.mp hm
    obtain ⟨i, q, hq, rfl, rfl⟩ := ((w.graph.definitions k m hk).get_iff name e).mp he
    obtain ⟨d, hstands⟩ := w.stands_of_item hk hq
    obtain ⟨_, _, _, _, _, hdefines⟩ := hstands.part
    refine ⟨d, w.mem_of_stands hstands, ?_, hdefines.name, (hstands.id_eq w).1⟩
    rw [hdefines.isType, ← definitionKind_isType]
    exact htype

theorem LinkedFrom.lookup_iff (w : LinkedFrom asts analysis modules s p) {name : String} {q : QualifiedDefId} :
    lookupKey name (ProgramIndex.new p).types = some q.toDefId ↔ LastType analysis name q := by
  rw [lookup_types w.nodup_ids, w.type_iff]
  refine and_congr ?_ ⟨fun h m hm e he htype => ?_, fun h d hd htype hname => ?_⟩
  · refine exists_congr fun m => and_congr_right fun _ => exists_congr fun e => ?_
    exact and_congr_right fun _ => and_congr_right fun _ => ⟨QualifiedDefId.toDefId_injective, fun h => by rw [h]⟩
  · obtain ⟨d, hd, htype', hname, hid⟩ := w.type_iff.mpr ⟨m, hm, e, he, htype, rfl⟩
    exact QualifiedDefId.toDefId_le.mp (hid ▸ h d hd htype' hname)
  · obtain ⟨m, hm, e, he, htype', hid⟩ := w.type_iff.mp ⟨d, hd, htype, hname, rfl⟩
    rw [← hid]
    exact QualifiedDefId.toDefId_le.mpr (h m hm e he htype')

end

/-- **The nominal types of a package are lowered module by module exactly where every name is bound to the last type that carries
it.** -/
theorem nominal_types_iff {parser : Parser} {sources : List PackageSource} {p : HirProgram}
    {reports : List CompilerDiagnostic} (h : compilePackage parser.checkSyl sources = ⟨some p, reports⟩) :
    ForNominals (analyzeModules (parsedSources parser sources)) p
        (fun t _ q => (ProgramIndex.new p).lowerType t = some (.aggregate q.toDefId)) ↔
      ForNominals (analyzeModules (parsedSources parser sources)) p
        (fun _ name q => LastType (analyzeModules (parsedSources parser sources)) name q) := by
  obtain ⟨asts, s, hsources, w⟩ := compilePackage_linked h
  rw [hsources]
  have hpoint : ∀ {t : ResolvedType} {name : String} {q : QualifiedDefId}, t.nominalName = some name →
      ((ProgramIndex.new p).lowerType t = some (.aggregate q.toDefId) ↔ LastType (analyzeModules (moduleSources asts)) name q) := by
    intro t name q hname
    rw [lowerType_nominal _ hname, ← w.lookup_iff]
    simp
  constructor
  · intro hlowered m hm h hh hid d hd f hf ty hty t ht name hname q hq
    exact (hpoint hname).mp (hlowered m hm h hh hid d hd f hf ty hty t ht name hname q hq)
  · intro hlast m hm h hh hid d hd f hf ty hty t ht name hname q hq
    exact (hpoint hname).mpr (hlast m hm h hh hid d hd f hf ty hty t ht name hname q hq)

end Package
end Syllog
