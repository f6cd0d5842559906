import Syllog.PackagePlan
/-!
# PackageLink — a package that compiles, file by file

Every report of a phase is an error, so a package with a program was parsed, analyzed and linked without any.  Its files are
then lowered one after another, each from the names of its module; what is lowered of a module grows by the items of each of
its files, and its counter by their local identities.
-/
namespace Syllog

namespace Modules

open Hir Ast Semantic

/-! ## Reports of the graph -/

/-- Only errors are reported. -/
def OnlyErrors (diagnostics : List Diagnostic) : Prop := ∀ d ∈ diagnostics, d.severity = .error

theorem OnlyErrors.snoc {diagnostics : List Diagnostic} (h : OnlyErrors diagnostics) (code message file : String) (span : Span) :
    OnlyErrors (diagnostics ++ [graphError code message file span]) := by
  intro d hd
  rcases List.mem_append.mp hd with hd | hd
  · exact h d hd
  · rw [List.mem_singleton.mp hd]
    rfl

theorem collectItem_errors {id : Nat} {name file : String} {r : ResolvedModule × Nat × List Diagnostic} {item : Item}
    (h : OnlyErrors r.2.2) : OnlyErrors (collectItem id name file r item).2.2 := by
  unfold collectItem
  simp only
  split
  · exact h.snoc _ _ _ _
  · exact h

theorem collectSource_errors {ids : OrdMap String Nat} {c : Collected} {source : ModuleSource} (h : OnlyErrors c.diagnostics) :
    OnlyErrors (collectSource ids c source).diagnostics := by
  unfold collectSource
  split
  · exact h.snoc _ _ _ _
  split
  · exact h
  split
  · exact h
  exact List.foldlRecOn (motive := fun r : ResolvedModule × Nat × List Diagnostic => OnlyErrors r.2.2) _ _ h
    fun r hr item _ => collectItem_errors hr

theorem resolveImport_errors {ids : OrdMap String Nat} {r : Linked} {p : PendingImport} (h : OnlyErrors r.diagnostics) :
    OnlyErrors (resolveImport ids r p).diagnostics := by
  unfold resolveImport
  split
  · exact h
  simp only
  split
  · exact h.snoc _ _ _ _
  split
  · exact h.snoc _ _ _ _
  split
  · unfold bindImport
    split
    · exact h
    simp only
    split
    · exact h.snoc _ _ _ _
    · exact h
  · exact h.snoc _ _ _ _

theorem linkModules_errors (sources : List ModuleSource) : OnlyErrors (linkModules sources).diagnostics := by
  have hcollected : OnlyErrors (collectSources sources (moduleIds sources)).diagnostics :=
    List.foldlRecOn (motive := fun c : Collected => OnlyErrors c.diagnostics) _ _ (fun _ hd => by cases hd)
      fun c hc source _ => collectSource_errors hc
  exact List.foldlRecOn (motive := fun r : Linked => OnlyErrors r.diagnostics) _ _ hcollected
    fun r hr p _ => resolveImport_errors hr

end Modules

namespace Package

open Hir Ast Semantic Modules AstLower

/-! ## A package that compiles -/

theorem mem_sortDiagnostics {d : CompilerDiagnostic} {diagnostics : List CompilerDiagnostic} :
    d ∈ sortDiagnostics diagnostics ↔ d ∈ diagnostics := (List.perm_insertionSort _ diagnostics).mem_iff

theorem hasErrors_eq_false {diagnostics : List CompilerDiagnostic} :
    hasErrors diagnostics = false ↔ ∀ d ∈ diagnostics, d.diagnostic.severity ≠ .error := by
  simp [hasErrors]

/-- The tree of a source. -/
def parsed (asts : OrdMap String SourceFile) (source : PackageSource) : Option ModuleSource :=
  (asts.get? source.file).map fun ast => ⟨source.file, ast⟩

theorem pairwise_of_duplicateErrors : ∀ {sources : List PackageSource}, sources.Pairwise (fun a b => a.file ≤ b.file) →
    hasErrors (duplicateErrors sources) = false → sources.Pairwise (fun a b => a.file < b.file)
  | [], _, _ => .nil
  | [_], _, _ => List.pairwise_singleton _ _
  | a :: b :: rest, hsorted, h => by
    have hsplit := hasErrors_eq_false.mp h
    have hne : a.file ≠ b.file := fun heq => by
      refine hsplit (packageError b.file "SYL9002" "package source filename is duplicated") ?_ rfl
      rw [duplicateErrors, if_pos heq]
      exact List.mem_append_left _ List.mem_cons_self
    rw [List.pairwise_cons] at hsorted
    have hrest : (b :: rest).Pairwise fun a b => a.file < b.file :=
      pairwise_of_duplicateErrors hsorted.2 (hasErrors_eq_false.mpr fun d hd => hsplit d (List.mem_append_right _ hd))
    refine .cons (fun c hc => ?_) hrest
    have hab : a.file < b.file := lt_of_le_of_ne (hsorted.1 b List.mem_cons_self) hne
    rcases List.mem_cons.mp hc with rfl | hc
    · exact hab
    · exact hab.trans ((List.pairwise_cons.mp hrest).1 c hc)

theorem parseSource_asts (checkSyl : String → String → CheckResult) : ∀ (sources : List PackageSource)
    (r : OrdMap String SourceFile × List CompilerDiagnostic), (sources.foldl (parseSource checkSyl) r).1 =
      (sources.filterMap fun source => (checkSyl source.file source.source).ast.map (source.file, ·)).foldl
        (fun m e => m.insert e.1 e.2) r.1
  | [], _ => rfl
  | source :: sources, r => by
    rw [List.foldl_cons, parseSource_asts checkSyl sources, parseSource, List.filterMap_cons]
    cases (checkSyl source.file source.source).ast with
    | none => rfl
    | some ast => rfl

/-- What parsing gives where every file has a tree. -/
structure Parses (checkSyl : String → String → CheckResult) (sources : List PackageSource) (asts : OrdMap String SourceFile) :
    Prop where
  sources_eq : moduleSources asts = sources.filterMap (parsed asts)
  parsed : ∀ source ∈ sources, ∃ ast, asts.get? source.file = some ast ∧ (checkSyl source.file source.source).ast = some ast

/-- As many trees as files: every file has one. -/
theorem parses_ofList {checkSyl : String → String → CheckResult} {sources : List PackageSource}
    (hsorted : sources.Pairwise fun a b => a.file < b.file)
    (hlength : (OrdMap.ofList (sources.filterMap fun source =>
      (checkSyl source.file source.source).ast.map (source.file, ·))).entries.length = sources.length) :
    Parses checkSyl sources (OrdMap.ofList (sources.filterMap fun source =>
      (checkSyl source.file source.source).ast.map (source.file, ·))) := by
  generalize hasts : OrdMap.ofList (sources.filterMap fun source =>
    (checkSyl source.file source.source).ast.map (source.file, ·)) = asts at hlength ⊢
  have hget : ∀ file ast, asts.get? file = some ast → ∃ source ∈ sources, source.file = file ∧
      (checkSyl source.file source.source).ast = some ast := by
    intro file ast h
    rw [← hasts] at h
    obtain ⟨source, hs, he⟩ := List.mem_filterMap.mp (OrdMap.mem_of_get?_ofList h)
    obtain ⟨ast', hast, he⟩ := Option.map_eq_some_iff.mp he
    cases he
    exact ⟨source, hs, rfl, hast⟩
  have hfiles : (sources.map (·.file)).Pairwise (· < ·) := List.pairwise_map.mpr hsorted
  have hnodup : (sources.map (·.file)).Nodup := hfiles.imp ne_of_lt
  have hkeys : asts.keys = sources.map (·.file) := by
    have hsub : asts.keys ⊆ sources.map (·.file) := fun file hfile => by
      obtain ⟨ast, hast⟩ := OrdMap.mem_keys_iff.mp hfile
      obtain ⟨source, hs, rfl, -⟩ := hget file ast hast
      exact List.mem_map_of_mem hs
    have hperm := (List.Nodup.subperm asts.nodup_keys hsub).perm_of_length_le (by simp [OrdMap.keys, hlength])
    exact hperm.eq_of_pairwise (fun a b _ _ hab hba => absurd hba (lt_asymm hab)) (List.pairwise_map.mpr asts.sorted) hfiles
  refine ⟨?_, fun source hs => ?_⟩
  · have hsources : sources.filterMap (parsed asts) =
        asts.keys.filterMap fun file => (asts.get? file).map fun ast => (⟨file, ast⟩ : ModuleSource) := by
      rw [hkeys, List.filterMap_map]
      rfl
    rw [hsources, OrdMap.keys, List.filterMap_map, moduleSources, ← List.filterMap_eq_map]
    refine (List.filterMap_congr fun e he => ?_).symm
    show (asts.get? e.1).map _ = _
    rw [OrdMap.get?_eq_some_iff.mpr (show (e.1, e.2) ∈ asts.entries from he)]
    rfl
  · have hfile : source.file ∈ asts.keys := hkeys ▸ List.mem_map_of_mem hs
    obtain ⟨ast, hast⟩ := OrdMap.mem_keys_iff.mp hfile
    obtain ⟨source', hs', heq, hchecked⟩ := hget source.file ast hast
    rw [List.inj_on_of_nodup_map hnodup hs' hs heq] at hchecked
    exact ⟨ast, hast, hchecked⟩

theorem parseSources_parses {checkSyl : String → String → CheckResult} {sources : List PackageSource}
    (hsorted : sources.Pairwise fun a b => a.file < b.file) {diagnostics diagnostics' : List CompilerDiagnostic}
    {asts : OrdMap String SourceFile} (h : parseSources checkSyl sources diagnostics = (some asts, diagnostics')) :
    Parses checkSyl sources asts := by
  unfold parseSources at h
  simp only [Prod.mk.injEq] at h
  obtain ⟨h, -⟩ := h
  split at h
  · rename_i hlength
    cases h
    rw [parseSource_asts] at hlength ⊢
    exact parses_ofList hsorted hlength
  · cases h

/-- What a package that compiles was linked from. -/
structure Compiled (checkSyl : String → String → CheckResult) (sources : List PackageSource) (asts : OrdMap String SourceFile)
    (diagnostics : List CompilerDiagnostic) (p : HirProgram) : Prop where
  parses : Parses checkSyl sources asts
  sorted : sources.Pairwise fun a b => a.file < b.file
  clean : hasErrors diagnostics = false
  analyzed : ∀ d ∈ (analyzeModules (moduleSources asts)).diagnostics, d.severity ≠ .error
  linked : hasErrors (linkSources sources asts (analyzeModules (moduleSources asts)) diagnostics).diagnostics = false
  program : p = ⟨(linkSources sources asts (analyzeModules (moduleSources asts)) diagnostics).modules.values,
    (linkSources sources asts (analyzeModules (moduleSources asts)) diagnostics).entry⟩

theorem linkPackage_eq {sources : List PackageSource} {asts : OrdMap String SourceFile} {diagnostics : List CompilerDiagnostic}
    {p : HirProgram} {reports : List CompilerDiagnostic} (h : linkPackage sources asts diagnostics = ⟨some p, reports⟩) :
    ∃ ds, ds = diagnostics ++ (analyzeModules (moduleSources asts)).diagnostics.map (fun d => ⟨semanticPhase d.code, d⟩) ∧
      hasErrors ds = false ∧ ∃ s, s = linkSources sources asts (analyzeModules (moduleSources asts)) ds ∧
        hasErrors s.diagnostics = false ∧ p = ⟨s.modules.values, s.entry⟩ := by
  unfold linkPackage at h
  simp only at h
  by_cases herrors : hasErrors (diagnostics ++
      (analyzeModules (moduleSources asts)).diagnostics.map fun d => ⟨semanticPhase d.code, d⟩) = true
  · rw [if_pos herrors] at h
    cases h
  rw [if_neg herrors] at h
  refine ⟨_, rfl, by simpa using herrors, _, rfl, ?_⟩
  obtain ⟨hlinked, hp⟩ := Option.ite_none_left_eq_some.mp (congrArg PackageCompilation.hir h)
  refine ⟨hasErrors_eq_false.mpr fun d hd => ?_, (Option.some.inj hp).symm⟩
  exact hasErrors_eq_false.mp (Bool.not_eq_true _ ▸ hlinked) d (mem_sortDiagnostics.mpr (List.mem_append_left _ hd))

/-- **A package that compiles was parsed, analyzed and linked without errors.** -/
theorem compilePackage_compiled {checkSyl : String → String → CheckResult} {sources : List PackageSource} {p : HirProgram}
    {reports : List CompilerDiagnostic} (h : compilePackage checkSyl sources = ⟨some p, reports⟩) :
    ∃ asts diagnostics, Compiled checkSyl (sortedSources sources) asts diagnostics p := by
  unfold compilePackage at h
  simp only at h
  split_ifs at h with hnil hdup
  · cases h
  · cases h
  split at h
  · cases h
  rename_i asts diagnostics hparse
  have hsorted : (sortedSources sources).Pairwise fun a b => a.file < b.file :=
    pairwise_of_duplicateErrors (List.pairwise_insertionSort _ sources) (by simpa using hdup)
  obtain ⟨ds, hds, hclean, s, rfl, hlinked, rfl⟩ := linkPackage_eq h
  refine ⟨asts, ds, parseSources_parses hsorted hparse, hsorted, hclean, fun d hd => ?_, hlinked, rfl⟩
  refine hasErrors_eq_false.mp hclean ⟨semanticPhase d.code, d⟩ ?_
  rw [hds]
  exact List.mem_append_right _ (List.mem_map.mpr ⟨d, hd, rfl⟩)

theorem byFile_moduleSources (asts : OrdMap String SourceFile) : byFile (moduleSources asts) = moduleSources asts := by
  refine List.Pairwise.insertionSort_eq (List.pairwise_map.mpr (asts.sorted.imp fun {a b} hab => ?_))
  exact le_of_lt hab

/-- Its graph is sound. -/
theorem Compiled.graph {checkSyl : String → String → CheckResult} {sources : List PackageSource} {asts : OrdMap String SourceFile}
    {diagnostics : List CompilerDiagnostic} {p : HirProgram} (h : Compiled checkSyl sources asts diagnostics p) :
    (analyzeModules (moduleSources asts)).modules = (linkModules (moduleSources asts)).modules.values ∧
      Graph (moduleIds (moduleSources asts)) (moduleSources asts) (linkModules (moduleSources asts)).modules := by
  have hmodules : (analyzeModules (moduleSources asts)).modules = (linkModules (moduleSources asts)).modules.values := by
    rw [analyzeModules, byFile_moduleSources]
  refine ⟨hmodules, linkModules_graph ?_⟩
  refine List.eq_nil_iff_forall_not_mem.mpr fun d hd => ?_
  refine h.analyzed d ?_ (linkModules_errors _ d hd)
  show d ∈ Modules.sortDiagnostics _
  rw [byFile_moduleSources]
  refine (List.mem_insertionSort _).mpr (List.mem_append_left _ (List.mem_append_left _ hd))

/-! ## Lowering file by file -/

/-- The names of a module, as a file's lowering looks them up. -/
def lowererOf (k : Nat) (names : PlannedNames) : Lowerer := ⟨k, OrdMap.empty, OrdMap.empty, names.globals, names.members⟩

theorem resolved_of_names {l l' : Lowerer} (hmodule : l'.module = l.module) (hglobals : l'.globals = l.globals)
    (hmembers : l'.members = l.members) {base base' : Nat} (hbase : base' ≤ base) {use : Use} {referent : Referent}
    (h : Resolved l base use referent) : Resolved l' base' use referent := by
  have hmember : ∀ segments, l'.memberOf segments = l.memberOf segments := fun segments => by
    rw [Lowerer.memberOf, Lowerer.memberOf, hmembers]
  cases h with
  | free global => exact .free (hglobals ▸ global)
  | bound module index => exact .bound (module.trans hmodule.symm) (hbase.trans index)
  | path member => exact .path ((hmember _).trans member)
  | pattern member => exact .pattern ((hmember _).trans member)

theorem defines_of_names {l l' : Lowerer} (hmodule : l'.module = l.module) (hglobals : l'.globals = l.globals)
    (hmembers : l'.members = l.members) {base base' : Nat} (hbase : base' ≤ base) {item : Item} {d : HirDefinition}
    (h : Defines l base item d) : Defines l' base' item d := by
  refine ⟨?_, h.name, h.span, ?_, h.binders, h.isType,
    h.referents.imp fun _ _ => resolved_of_names hmodule hglobals hmembers hbase⟩
  · rw [h.id, Lowerer.globalId, Lowerer.globalId, hglobals, hmodule]
  · rw [h.members]
    refine List.map_congr_left fun key _ => ?_
    rw [Lowerer.memberId, Lowerer.memberId, hmembers, hmodule]

section
variable {asts : OrdMap String SourceFile} {analysis : ModuleAnalysis} {plan : IdentityPlan}

theorem planImport_same {file file' : String} {names names' : PlannedNames} (hglobals : names.globals = names'.globals)
    (hmembers : names.members = names'.members) (i : ResolvedImport) :
    (planImport asts analysis plan file names i).globals = (planImport asts analysis plan file' names' i).globals ∧
      (planImport asts analysis plan file names i).members = (planImport asts analysis plan file' names' i).members := by
  unfold planImport
  split
  · exact ⟨hglobals, hmembers⟩
  simp only
  split
  · exact ⟨by rw [hglobals], hmembers⟩
  split
  · exact ⟨by rw [hglobals], hmembers⟩
  · exact ⟨by rw [hglobals], by rw [hmembers]⟩

/-- All files of a module see the same names. -/
theorem plannedNames_same (m : ResolvedModule) (name file file' : String) (ds ds' : List CompilerDiagnostic) :
    (plannedNames m name asts analysis plan file ds).globals = (plannedNames m name asts analysis plan file' ds').globals ∧
      (plannedNames m name asts analysis plan file ds).members =
        (plannedNames m name asts analysis plan file' ds').members := by
  have hfold : ∀ (is : List ResolvedImport) (names names' : PlannedNames), names.globals = names'.globals →
      names.members = names'.members →
        (is.foldl (planImport asts analysis plan file) names).globals =
          (is.foldl (planImport asts analysis plan file') names').globals ∧
        (is.foldl (planImport asts analysis plan file) names).members =
          (is.foldl (planImport asts analysis plan file') names').members := by
    intro is
    induction is with
    | nil => exact fun _ _ hglobals hmembers => ⟨hglobals, hmembers⟩
    | cons i is ih =>
      intro names names' hglobals hmembers
      obtain ⟨hg, hm⟩ := @planImport_same asts analysis plan file file' names names' hglobals hmembers i
      exact ih _ _ hg hm
  exact hfold _ _ _ rfl rfl

/-- The names the files of a module see. -/
def namesOf (asts : OrdMap String SourceFile) (analysis : ModuleAnalysis) (m : ResolvedModule) : PlannedNames :=
  plannedNames m m.name asts analysis (planIdentities analysis asts) "" []

end

/-- What is lowered of a module once the files `done` are. -/
structure LoweredPart (ids : OrdMap String Nat) (asts : OrdMap String SourceFile) (analysis : ModuleAnalysis)
    (done : List ModuleSource) (s : LinkState) (k : Nat) (m : ResolvedModule) (base next : Nat)
    (definitions : List HirDefinition) : Prop where
  planned : (planIdentities analysis asts).nextByModule.get? k = some base
  reached : s.nextByModule.get? k = some next
  le : base ≤ next
  modules : ((s.modules.get? k).map (·.definitions)).getD [] = definitions
  defines : List.Forall₂ (Defines (lowererOf k (namesOf asts analysis m)) base) ((itemsIn ids k done).map (·.2)) definitions
  bindings : definitions.flatMap HirDefinition.bindings = idRange k base next

structure LoweredParts (ids : OrdMap String Nat) (asts : OrdMap String SourceFile) (analysis : ModuleAnalysis)
    (modules : ModuleMap) (done : List ModuleSource) (s : LinkState) : Prop where
  parts : ∀ k m, modules.get? k = some m →
    ∃ base next definitions, LoweredPart ids asts analysis done s k m base next definitions
  located : ∀ k h, s.modules.get? k = some h → h.id = k ∧ ∃ m, modules.get? k = some m
  present : ∀ source ∈ done, ∀ k, placed ids k source = true → ∃ h, s.modules.get? k = some h
  named : ∀ source ∈ done, ∀ k m, placed ids k source = true → modules.get? k = some m → moduleName source.ast = some m.name

section
variable {ids : OrdMap String Nat} {asts : OrdMap String SourceFile} {analysis : ModuleAnalysis} {modules : ModuleMap}

theorem module_eq (hgraph : Graph ids (moduleSources asts) modules) (hmodules : analysis.modules = modules.values)
    {name : String} {m : ResolvedModule} (h : analysis.module name = some m) :
    ∃ k, modules.get? k = some m ∧ m.id = k ∧ m.name = name ∧ ids.get? name = some k := by
  unfold ModuleAnalysis.module at h
  rw [hmodules] at h
  have hname : m.name = name := by simpa using List.find?_some h
  obtain ⟨k, hk⟩ := mem_values_iff.mp (List.mem_of_find?_eq_some h)
  exact ⟨k, hk, hgraph.id k m hk, hname, hname ▸ hgraph.name k m hk⟩

theorem linkSource_grows (hgraph : Graph ids (moduleSources asts) modules) (hmodules : analysis.modules = modules.values)
    (hnamed : ∀ source ∈ moduleSources asts, Named source.ast) (s : LinkState) (source : PackageSource) :
    ∃ extra, (linkSource asts analysis (planIdentities analysis asts) s source).diagnostics = s.diagnostics ++ extra := by
  unfold linkSource
  split
  · exact ⟨[], (List.append_nil _).symm⟩
  split
  · exact ⟨[], (List.append_nil _).symm⟩
  split
  · exact ⟨_, rfl⟩
  rename_i module hmodule
  obtain ⟨k, hk, -, hname, -⟩ := module_eq hgraph hmodules hmodule
  rw [← hname]
  have hdiagnostics := (@plannedNames_sees ids asts modules analysis source.file hgraph hmodules hnamed k module hk s.diagnostics).1
  simp only [hdiagnostics]
  split
  · exact ⟨_, rfl⟩
  split
  · unfold LinkState.extend
    simp only
    split
    · exact ⟨_, rfl⟩
    · exact ⟨[], (List.append_nil _).symm⟩
  · exact ⟨_, rfl⟩

/-- **A file that is linked without errors is lowered from the names of its module.** -/
theorem linkSource_silent (hgraph : Graph ids (moduleSources asts) modules) (hmodules : analysis.modules = modules.values)
    (hnamed : ∀ source ∈ moduleSources asts, Named source.ast) {s : LinkState} {source : PackageSource} {ast : SourceFile}
    (hast : asts.get? source.file = some ast)
    (h : hasErrors (linkSource asts analysis (planIdentities analysis asts) s source).diagnostics = false) :
    ∃ k m a lowered candidate next, modules.get? k = some m ∧ placed ids k ⟨source.file, ast⟩ = true ∧
      moduleName ast = some m.name ∧ analysis.sourceAnalyses.get? source.file = some a ∧
      lowerModuleToHir ast a k (namesOf asts analysis m).globals (namesOf asts analysis m).members
        ((s.nextByModule.get? k).getD 0) = .ok (lowered, candidate, next) ∧
      linkSource asts analysis (planIdentities analysis asts) s source = s.extend source.file k lowered candidate next := by
  have hmem : (⟨source.file, ast⟩ : ModuleSource) ∈ moduleSources asts :=
    List.mem_map.mpr ⟨_, OrdMap.get?_eq_some_iff.mp hast, rfl⟩
  obtain ⟨k₀, -, hplaced, -⟩ := hgraph.declared _ hmem
  obtain ⟨name, hname, hid⟩ := Option.bind_eq_some_iff.mp (of_decide_eq_true hplaced)
  have hreport : ∀ ds file code message, hasErrors (ds ++ [packageError file code message]) ≠ false := by
    simp [hasErrors, packageError]
  unfold linkSource at h ⊢
  simp only [hast, hname] at h ⊢
  cases hmodule : analysis.module name with
  | none =>
    rw [hmodule] at h
    exact absurd h (hreport _ _ _ _)
  | some m =>
    rw [hmodule] at h
    obtain ⟨k, hk, rfl, rfl, hid'⟩ := module_eq hgraph hmodules hmodule
    have hdiagnostics := (@plannedNames_sees ids asts modules analysis source.file hgraph hmodules hnamed m.id m hk
      s.diagnostics).1
    obtain ⟨hglobals, hmembers⟩ := @plannedNames_same asts analysis (planIdentities analysis asts) m m.name source.file ""
      s.diagnostics []
    simp only [hdiagnostics, hglobals, hmembers] at h ⊢
    cases ha : analysis.sourceAnalyses.get? source.file with
    | none =>
      rw [ha] at h
      exact absurd h (hreport _ _ _ _)
    | some a =>
      rw [ha] at h
      simp only at h ⊢
      cases hlower : lowerModuleToHir ast a m.id (namesOf asts analysis m).globals (namesOf asts analysis m).members
          ((s.nextByModule.get? m.id).getD 0) with
      | error errors =>
        rw [namesOf] at hlower
        rw [hlower] at h
        obtain ⟨hne, herrors⟩ := lowerModuleToHir_errors hlower
        obtain ⟨d, hd⟩ := List.exists_mem_of_ne_nil errors hne
        exact absurd (herrors d hd)
          (hasErrors_eq_false.mp h ⟨.typeCheck, d⟩ (List.mem_append_right _ (List.mem_map.mpr ⟨d, hd, rfl⟩)))
      | ok r =>
        obtain ⟨lowered, candidate, next⟩ := r
        refine ⟨m.id, m, a, lowered, candidate, next, hk, ?_, rfl, rfl, hlower, ?_⟩
        · exact decide_eq_true (by rw [hname]; exact hid')
        · rw [namesOf] at hlower
          rw [hlower]

/-- Where the names of a module are planned, lowering one of its files plans none. -/
theorem indexed_planned (hgraph : Graph ids (moduleSources asts) modules) (hmodules : analysis.modules = modules.values)
    (hnamed : ∀ source ∈ moduleSources asts, Named source.ast) {k : Nat} {m : ResolvedModule} (hm : modules.get? k = some m)
    {source : ModuleSource} (hs : source ∈ moduleSources asts) (hk : placed ids k source = true) (a : Analysis) (next : Nat) :
    indexed source.ast a k (namesOf asts analysis m).globals (namesOf asts analysis m).members next =
      (⟨k, a.symbols.types, a.expressionTypes, (namesOf asts analysis m).globals, (namesOf asts analysis m).members⟩, next) := by
  have hsees := (@plannedNames_sees ids asts modules analysis "" hgraph hmodules hnamed k m hm []).2
  have hitems : ∀ item ∈ source.ast.items, (source.file, item) ∈ itemsIn ids k (moduleSources asts) :=
    fun item hitem => mem_itemsIn.mpr ⟨source, hs, hk, rfl, hitem⟩
  have hglobals : indexGlobals k source.ast.items (namesOf asts analysis m).globals next =
      ((namesOf asts analysis m).globals, next) := by
    refine indexKeys_planned fun name hname => ?_
    obtain ⟨item, hitem, rfl⟩ := List.mem_map.mp hname
    obtain ⟨j, hj⟩ := List.mem_iff_getElem?.mp (hitems item hitem)
    rw [OrdMap.contains, namesOf, hsees.own item.name _ (((hgraph.definitions k m hm).get_iff _ _).mpr ⟨j, _, hj, rfl, rfl⟩)]
    rfl
  have hmembers : indexMembers k source.ast.items (namesOf asts analysis m).members next =
      ((namesOf asts analysis m).members, next) := by
    refine indexKeys_planned fun key hkey => ?_
    obtain ⟨item, hitem, hkey⟩ := List.mem_flatMap.mp hkey
    obtain ⟨id, -, hid⟩ := hsees.members _ (hitems item hitem) key hkey
    rw [OrdMap.contains, namesOf, hid]
    rfl
  unfold indexed
  simp only [hglobals, hmembers]

/-- One more file. -/
theorem LoweredParts.step (hgraph : Graph ids (moduleSources asts) modules) (hmodules : analysis.modules = modules.values)
    (hnamed : ∀ source ∈ moduleSources asts, Named source.ast) {done : List ModuleSource} {s : LinkState}
    (hparts : LoweredParts ids asts analysis modules done s) {source : PackageSource} {ast : SourceFile}
    (hast : asts.get? source.file = some ast)
    (h : hasErrors (linkSource asts analysis (planIdentities analysis asts) s source).diagnostics = false) :
    LoweredParts ids asts analysis modules (done ++ [⟨source.file, ast⟩])
      (linkSource asts analysis (planIdentities analysis asts) s source) := by
  obtain ⟨k, m, a, lowered, candidate, next, hm, hplaced, hname, -, hlower, heq⟩ := linkSource_silent hgraph hmodules hnamed hast h
  have hmem : (⟨source.file, ast⟩ : ModuleSource) ∈ moduleSources asts :=
    List.mem_map.mpr ⟨_, OrdMap.get?_eq_some_iff.mp hast, rfl⟩
  have hplaced' : ∀ k', placed ids k' ⟨source.file, ast⟩ = decide (k = k') := fun k' => by
    obtain ⟨name, hname, hid⟩ := Option.bind_eq_some_iff.mp (of_decide_eq_true hplaced)
    exact placed_eq hname hid k'
  obtain ⟨base, middle, definitions, hpart⟩ := hparts.parts k m hm
  rw [hpart.reached, Option.getD_some] at hlower
  have hlowers := lowerModuleToHir_lowers hlower
  rw [indexed_planned hgraph hmodules hnamed hm hmem hplaced a middle] at hlowers
  rw [heq]
  refine ⟨fun k' m' hm' => ?_, fun k' h' hh' => ?_, fun source' hsource' k' hk' => ?_, fun source' hsource' k' m' hk' hm' => ?_⟩
  · by_cases hkk : k = k'
    · subst hkk
      cases hm.symm.trans hm'
      refine ⟨base, next, definitions ++ lowered.definitions, hpart.planned, ?_, hpart.le.trans hlowers.le, ?_, ?_, ?_⟩
      · rw [LinkState.extend, OrdMap.get?_insert, if_pos rfl]
      · simp only [LinkState.extend, OrdMap.get?_insert, if_pos]
        rw [hpart.modules]
        rfl
      · rw [itemsIn_snoc, if_pos hplaced, List.map_append, List.map_map]
        refine List.rel_append hpart.defines ?_
        show List.Forall₂ _ (ast.items.map id) lowered.definitions
        rw [List.map_id]
        refine hlowers.defines.imp fun item d hd => ?_
        refine defines_of_names ?_ ?_ ?_ hpart.le hd
        · rfl
        · rfl
        · rfl
      · rw [List.flatMap_append, hpart.bindings, hlowers.bindings]
        exact idRange_append hpart.le hlowers.le
    · obtain ⟨base', next', definitions', hpart'⟩ := hparts.parts k' m' hm'
      refine ⟨base', next', definitions', hpart'.planned, ?_, hpart'.le, ?_, ?_, hpart'.bindings⟩
      · rw [LinkState.extend, OrdMap.get?_insert, if_neg hkk]
        exact hpart'.reached
      · rw [LinkState.extend, OrdMap.get?_insert, if_neg hkk]
        exact hpart'.modules
      · rw [itemsIn_snoc, if_neg (by rw [hplaced' k']; simpa using hkk)]
        exact hpart'.defines
  · rw [LinkState.extend, OrdMap.get?_insert] at hh'
    split_ifs at hh' with hkk
    · cases hh'
      exact ⟨hkk, m, hkk ▸ hm⟩
    · exact hparts.located k' h' hh'
  · rw [LinkState.extend, OrdMap.get?_insert]
    split_ifs with hkk
    · exact ⟨_, rfl⟩
    · rcases List.mem_append.mp hsource' with hs | hs
      · exact hparts.present source' hs k' hk'
      · rw [List.mem_singleton.mp hs, hplaced' k', decide_eq_true_eq] at hk'
        exact absurd hk' hkk
  · rcases List.mem_append.mp hsource' with hs | hs
    · exact hparts.named source' hs k' m' hk' hm'
    · rw [List.mem_singleton.mp hs, hplaced' k', decide_eq_true_eq] at hk'
      subst hk'
      cases hm.symm.trans hm'
      rw [List.mem_singleton.mp hs]
      exact hname

/-- What holds before the first file and is kept by every file that is linked without errors holds of a package that compiles. -/
theorem linkSources_each (hgraph : Graph ids (moduleSources asts) modules) (hmodules : analysis.modules = modules.values)
    (hnamed : ∀ source ∈ moduleSources asts, Named source.ast) {checkSyl : String → String → CheckResult}
    {sources : List PackageSource} (hparses : Parses checkSyl sources asts) {diagnostics : List CompilerDiagnostic}
    (h : hasErrors (linkSources sources asts analysis diagnostics).diagnostics = false)
    {P : List ModuleSource → LinkState → Prop}
    (hstep : ∀ {done : List ModuleSource} {s : LinkState}, P done s → ∀ {source : PackageSource} {ast : SourceFile},
      asts.get? source.file = some ast →
      hasErrors (linkSource asts analysis (planIdentities analysis asts) s source).diagnostics = false →
        P (done ++ [⟨source.file, ast⟩]) (linkSource asts analysis (planIdentities analysis asts) s source))
    (hstart : P [] ⟨(planIdentities analysis asts).nextByModule, OrdMap.empty, none, diagnostics⟩) :
    P (moduleSources asts) (linkSources sources asts analysis diagnostics) := by
  have hsilent : ∀ s : LinkState, (s.diagnostics.filter fun d => d.diagnostic.severity = .error) = [] ↔
      hasErrors s.diagnostics = false := fun s => by simp [hasErrors]
  rw [hparses.sources_eq]
  refine Logged.foldl_silent (fun s : LinkState => s.diagnostics.filter fun d => d.diagnostic.severity = .error)
    (P := fun done s => P (done.filterMap (parsed asts)) s)
    (fun s source hs => ?_) (fun pre source post s hl hs hdone => ?_) ((hsilent _).mpr h) hstart
  · obtain ⟨extra, hextra⟩ := linkSource_grows hgraph hmodules hnamed s source
    rw [hextra, List.filter_append] at hs
    exact (List.append_eq_nil_iff.mp hs).1
  · obtain ⟨ast, hast, -⟩ := hparses.parsed source (hl ▸ List.mem_append_right _ List.mem_cons_self)
    have hparsed : [source].filterMap (parsed asts) = [⟨source.file, ast⟩] := by simp [parsed, hast]
    rw [List.filterMap_append, hparsed]
    exact hstep hdone hast ((hsilent _).mp hs)

/-- **Every module of a package that compiles is lowered whole**, its local identities after the planned ones. -/
theorem linkSources_parts (hgraph : Graph ids (moduleSources asts) modules) (hmodules : analysis.modules = modules.values)
    (hnamed : ∀ source ∈ moduleSources asts, Named source.ast) {checkSyl : String → String → CheckResult}
    {sources : List PackageSource} (hparses : Parses checkSyl sources asts) {diagnostics : List CompilerDiagnostic}
    (h : hasErrors (linkSources sources asts analysis diagnostics).diagnostics = false) :
    LoweredParts ids asts analysis modules (moduleSources asts) (linkSources sources asts analysis diagnostics) := by
  refine linkSources_each hgraph hmodules hnamed hparses h
    (fun hparts _ _ hast hs => hparts.step hgraph hmodules hnamed hast hs) ?_
  refine ⟨fun k m hm => ?_, fun k h hh => by simp at hh, fun source hs => by simp at hs, fun source hs => by simp at hs⟩
  obtain ⟨next, hnext, -⟩ := (@plans_graph ids (moduleSources asts) modules hgraph asts analysis hmodules k m hm).members
  rw [hgraph.id k m hm] at hnext
  exact ⟨next, next, [], hnext, hnext, le_rfl, rfl, .nil, by simp [idRange]⟩

end

end Package
end Syllog
