import Syllog.LowerCongr
import Syllog.PackageAdded
/-!
# PackageFiles — what is lowered of a module is read off its files

Linking takes the files of all modules in one order, but what it makes of a module depends on the module's own files only: on their
trees, their analyses, the names the module sees and the index its local identities start from.
-/
namespace Syllog
namespace Package

open Hir Ast Semantic Modules AstLower

/-- Lowers one more file of a module: the definitions so far and the counter. -/
def lowerFile (k : Nat) (names : PlannedNames) (analyses : OrdMap String Analysis) (r : Option (List HirDefinition × Nat))
    (source : ModuleSource) : Option (List HirDefinition × Nat) :=
  r.bind fun r => (analyses.get? source.file).bind fun a =>
    match lowerModuleToHir source.ast a k names.globals names.members r.2 with
    | .ok (lowered, _, next) => some (r.1 ++ lowered.definitions, next)
    | .error _               => none

def lowerFiles (k : Nat) (names : PlannedNames) (analyses : OrdMap String Analysis) (base : Nat) (files : List ModuleSource) :
    Option (List HirDefinition × Nat) :=
  files.foldl (lowerFile k names analyses) (some ([], base))

/-- What is lowered of a module so far. -/
def LinkState.lowered (s : LinkState) (k : Nat) : List HirDefinition × Nat :=
  (((s.modules.get? k).map (·.definitions)).getD [], (s.nextByModule.get? k).getD 0)

/-- Once the files `done` are linked, every module is what its files among them are lowered to. -/
def LoweredFiles (ids : OrdMap String Nat) (asts : OrdMap String SourceFile) (analysis : ModuleAnalysis) (modules : ModuleMap)
    (done : List ModuleSource) (s : LinkState) : Prop :=
  ∀ k m, modules.get? k = some m →
    lowerFiles k (namesOf asts analysis m) analysis.sourceAnalyses (((planIdentities analysis asts).nextByModule.get? k).getD 0)
      (done.filter (placed ids k)) = some (s.lowered k)

section
variable {ids : OrdMap String Nat} {asts : OrdMap String SourceFile} {analysis : ModuleAnalysis} {modules : ModuleMap}

theorem LinkState.lowered_extend (s : LinkState) (file : String) (k k' : Nat) (lowered : HirModule) (candidate : Option DefId)
    (next : Nat) : (s.extend file k lowered candidate next).lowered k' =
      if k = k' then ((s.lowered k).1 ++ lowered.definitions, next) else s.lowered k' := by
  unfold LinkState.extend LinkState.lowered
  simp only [OrdMap.get?_insert]
  split_ifs with hk
  · rfl
  · rfl

theorem LoweredFiles.step (hgraph : Graph ids (moduleSources asts) modules) (hmodules : analysis.modules = modules.values)
    (hnamed : ∀ source ∈ moduleSources asts, Named source.ast) {done : List ModuleSource} {s : LinkState}
    (hfiles : LoweredFiles ids asts analysis modules done s) {source : PackageSource} {ast : SourceFile}
    (hast : asts.get? source.file = some ast)
    (h : hasErrors (linkSource asts analysis (planIdentities analysis asts) s source).diagnostics = false) :
    LoweredFiles ids asts analysis modules (done ++ [⟨source.file, ast⟩])
      (linkSource asts analysis (planIdentities analysis asts) s source) := by
  obtain ⟨k, m, a, lowered, candidate, next, hm, hplaced, hname, ha, hlower, heq⟩ :=
    linkSource_silent hgraph hmodules hnamed hast h
  intro k' m' hm'
  rw [heq, LinkState.lowered_extend, List.filter_append]
  have hplaced' : placed ids k' ⟨source.file, ast⟩ = decide (k = k') := by
    obtain ⟨name, hname, hid⟩ := Option.bind_eq_some_iff.mp (of_decide_eq_true hplaced)
    exact placed_eq hname hid k'
  by_cases hkk : k = k'
  · subst hkk
    cases hm.symm.trans hm'
    have hdone := hfiles k m hm
    have hlower' : lowerModuleToHir ast a k (namesOf asts analysis m).globals (namesOf asts analysis m).members (s.lowered k).2 =
        .ok (lowered, candidate, next) := hlower
    rw [List.filter_cons_of_pos hplaced, List.filter_nil, if_pos rfl]
    unfold lowerFiles at hdone ⊢
    rw [List.foldl_append, hdone, List.foldl_cons, List.foldl_nil]
    simp only [lowerFile, Option.bind_some, ha, hlower']
  · rw [List.filter_cons_of_neg (by simpa [hplaced'] using hkk), List.filter_nil, List.append_nil, if_neg hkk]
    exact hfiles k' m' hm'

/-- **Every module of a package that compiles is what its files are lowered to**, one after another. -/
theorem linkSources_files (hgraph : Graph ids (moduleSources asts) modules) (hmodules : analysis.modules = modules.values)
    (hnamed : ∀ source ∈ moduleSources asts, Named source.ast) {checkSyl : String → String → CheckResult}
    {sources : List PackageSource} (hparses : Parses checkSyl sources asts) {diagnostics : List CompilerDiagnostic}
    (h : hasErrors (linkSources sources asts analysis diagnostics).diagnostics = false) :
    LoweredFiles ids asts analysis modules (moduleSources asts) (linkSources sources asts analysis diagnostics) :=
  linkSources_each hgraph hmodules hnamed hparses h
    (fun hfiles _ _ hast hs => hfiles.step hgraph hmodules hnamed hast hs) fun _ _ _ => rfl

end

/-! ## Identities of the package -/

section
variable {asts : OrdMap String SourceFile} {analysis : ModuleAnalysis} {modules : ModuleMap} {s : LinkState} {p : HirProgram}
  {k : Nat} {m : ResolvedModule}

theorem LinkedFrom.planned_module (w : LinkedFrom asts analysis modules s p) (hm : modules.get? k = some m) {key : String}
    {id : DefId} (h : (planIdentities analysis asts).members.get? (toLex (m.name, key)) = some id) : id.module = k := by
  obtain ⟨next, -, hgiven⟩ := (w.plans hm).members
  rw [← ownMembers_get] at h
  exact (mem_idRange.mp (hgiven.placed key id h)).1.trans (w.graph.id k m hm)

/-- The identities that names stand for are of modules of the package. -/
structure FromModules (modules : ModuleMap) (names : PlannedNames) : Prop where
  globals : ∀ name id, names.globals.get? name = some id → ∃ t, modules.get? id.module = some t
  members : ∀ key id, names.members.get? key = some id → ∃ t, modules.get? id.module = some t

theorem LinkedFrom.fromModules_import (w : LinkedFrom asts analysis modules s p) {file : String} {names : PlannedNames}
    (h : FromModules modules names) {i : ResolvedImport} {j : Nat} {t : ResolvedModule} {q : String × Item}
    (ht : Targets (moduleIds (moduleSources asts)) (moduleSources asts) modules i k j t q) :
    FromModules modules (planImport asts analysis (planIdentities analysis asts) file names i) := by
  rw [planImport_eq w.graph w.modules_eq ht]
  refine ⟨fun name id hid => ?_, ?_⟩
  · rw [OrdMap.get?_insert] at hid
    split_ifs at hid
    · cases hid
      exact ⟨t, ht.module⟩
    · exact h.globals name id hid
  · refine List.foldlRecOn (motive := fun members : OrdMap String DefId => ∀ key id, members.get? key = some id →
      ∃ t, modules.get? id.module = some t) _ _ h.members fun members hmembers key _ other id hid => ?_
    split at hid
    · rename_i d hd
      rw [OrdMap.get?_insert] at hid
      split_ifs at hid
      · cases hid
        exact ⟨t, by rw [w.planned_module ht.module hd]; exact ht.module⟩
      · exact hmembers other id hid
    · exact hmembers other id hid

/-- **What a module sees is of modules of the package.** -/
theorem LinkedFrom.fromModules (w : LinkedFrom asts analysis modules s p) (hm : modules.get? k = some m) :
    FromModules modules (namesOf asts analysis m) := by
  refine List.foldlRecOn (motive := FromModules modules) _ _ ⟨fun name id hid => ?_, fun key id hid => ?_⟩
    fun names hnames i hi => ?_
  · obtain ⟨other, hother, heq⟩ := List.mem_filterMap.mp (OrdMap.mem_of_get?_ofList hid)
    obtain ⟨id', hid', heq⟩ := Option.map_eq_some_iff.mp heq
    cases heq
    obtain ⟨d, hd⟩ := OrdMap.mem_keys_iff.mp hother
    rw [(w.plans hm).top name d hd] at hid'
    cases hid'
    exact ⟨m, by rw [w.graph.id k m hm]; exact hm⟩
  · rw [ownMembers_get] at hid
    exact ⟨m, by rw [w.planned_module hm hid]; exact hm⟩
  · obtain ⟨⟨localName, i'⟩, hentry, rfl⟩ := List.mem_map.mp hi
    obtain ⟨-, k', j, t, q, ht⟩ := exists_targets w.graph hm (OrdMap.get?_eq_some_iff.mpr hentry)
    exact w.fromModules_import hnames ht

/-- A body refers to modules of the package and to what is built in. -/
theorem LinkedFrom.referents_placed (w : LinkedFrom asts analysis modules s p) {d : HirDefinition} (hd : d ∈ p.definitions)
    {r : Referent} (hr : r ∈ d.referents) :
    r.definition.module = builtinModule ∨ ∃ t, modules.get? r.definition.module = some t := by
  obtain ⟨k, m, i, item, hstands⟩ := w.stands_of_mem hd
  obtain ⟨base, _, _, _, _, hdefines⟩ := hstands.part
  have hnames := w.fromModules hstands.module
  have hmember : ∀ {segments : List String} {id : DefId}, (lowererOf k (namesOf asts analysis m)).memberOf segments = some id →
      id.module = builtinModule ∨ ∃ t, modules.get? id.module = some t := by
    intro segments id hid
    rcases Option.or_eq_some_iff.mp hid with hid | ⟨-, hid⟩
    · exact .inr (hnames.members _ id hid)
    · unfold builtinDefinition at hid
      split_ifs at hid <;> cases hid <;> exact .inl rfl
  obtain ⟨use, huse⟩ : ∃ use, Resolved (lowererOf k (namesOf asts analysis m)) base use r := by
    obtain ⟨j, hj, rfl⟩ := List.mem_iff_getElem.mp hr
    exact ⟨_, hdefines.referents.get (hdefines.referents.length_eq ▸ hj) hj⟩
  cases huse with
  | free global => exact .inr (hnames.globals _ _ global)
  | bound module _ => exact .inr ⟨m, by rw [Referent.definition, module]; exact hstands.module⟩
  | path member => exact hmember member
  | pattern member => exact hmember member

/-- A definition of a module has the module's number. -/
theorem LinkedFrom.module_of_mem (w : LinkedFrom asts analysis modules s p) {h : HirModule} (hh : s.modules.get? k = some h)
    {d : HirDefinition} (hd : d ∈ h.definitions) : d.id.module = k := by
  obtain ⟨m, base, next, -, hpart⟩ := w.part_of_module hh
  obtain ⟨i, hi⟩ := List.mem_iff_getElem?.mp hd
  have hlength : i < (itemsIn (moduleIds (moduleSources asts)) k (moduleSources asts)).length := by
    rw [← List.length_map, hpart.defines.length_eq]
    exact (List.getElem?_eq_some_iff.mp hi).1
  obtain ⟨m', d', hd', hstands⟩ := w.stands_of_place hh (List.getElem?_eq_getElem hlength)
  cases hi.symm.trans hd'
  rw [(hstands.id_eq w).1]

end

end Package
end Syllog
