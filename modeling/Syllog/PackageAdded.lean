import Syllog.MirTypes
/-!
# PackageAdded — a package and one with a module more

A module that no file imports, and whose name comes after those of the others, takes a number of its own and leaves the others
theirs.  What the graph, the plan and the lowering of files hold of the other modules is then the same in both packages.
-/
namespace Syllog
namespace Package

open Hir Ast Semantic Modules AstLower

/-! ## The files -/

/-- The files `after` are the files `before` and those of a module that none of them imports. -/
structure AddsModule (before after : List ModuleSource) (name : String) : Prop where
  files : before = after.filter fun source => moduleName source.ast ≠ some name
  declared : ∃ source ∈ after, moduleName source.ast = some name
  unused : ∀ source ∈ before, ∀ node ∈ source.ast.imports, joinPath node.path.dropLast ≠ name

/-- The names of the modules, in order. -/
def declaredNames (sources : List ModuleSource) : List String :=
  (OrdMap.ofList ((sources.filterMap fun source => moduleName source.ast).map (·, ()))).keys

theorem mem_declaredNames {sources : List ModuleSource} {name : String} :
    name ∈ declaredNames sources ↔ ∃ source ∈ sources, moduleName source.ast = some name := by
  unfold declaredNames
  rw [OrdMap.mem_keys_iff]
  constructor
  · rintro ⟨u, hu⟩
    obtain ⟨other, hother, heq⟩ := List.mem_map.mp (OrdMap.mem_of_get?_ofList hu)
    cases heq
    exact List.mem_filterMap.mp hother
  · intro h
    refine OrdMap.exists_get?_ofList ?_
    rw [List.map_map]
    exact List.mem_map.mpr ⟨name, List.mem_filterMap.mpr h, rfl⟩

/-- The name comes after those of all modules, and the number it gets is free. -/
structure ComesLast (sources : List ModuleSource) (name : String) : Prop where
  after : ∀ source ∈ sources, ∀ other, moduleName source.ast = some other → other < name
  few : (declaredNames sources).length < 2 ^ 32 - 1

theorem declaredNames_sorted (sources : List ModuleSource) : (declaredNames sources).Pairwise (· < ·) :=
  List.pairwise_map.mpr (OrdMap.sorted _)

section
variable {before after : List ModuleSource} {name : String}

theorem AddsModule.mem_before (h : AddsModule before after name) {source : ModuleSource} :
    source ∈ before ↔ source ∈ after ∧ moduleName source.ast ≠ some name := by
  rw [h.files, List.mem_filter, decide_eq_true_eq]

theorem AddsModule.declaredNames_eq (h : AddsModule before after name) (hlast : ComesLast before name) :
    declaredNames after = declaredNames before ++ [name] := by
  have hsorted : (declaredNames before ++ [name]).Pairwise (· < ·) := by
    refine List.pairwise_append.mpr ⟨declaredNames_sorted before, List.pairwise_singleton _ _, fun other hother last hmem => ?_⟩
    obtain ⟨source, hs, hname⟩ := mem_declaredNames.mp hother
    rw [List.mem_singleton.mp hmem]
    exact hlast.after source hs other hname
  have hmem : ∀ other, other ∈ declaredNames after ↔ other ∈ declaredNames before ++ [name] := by
    intro other
    rw [List.mem_append, List.mem_singleton, mem_declaredNames, mem_declaredNames]
    constructor
    · rintro ⟨source, hs, hname⟩
      by_cases heq : other = name
      · exact .inr heq
      · exact .inl ⟨source, h.mem_before.mpr ⟨hs, fun hn => heq (Option.some.inj (hname.symm.trans hn))⟩, hname⟩
    · rintro (⟨source, hs, hname⟩ | rfl)
      · exact ⟨source, (h.mem_before.mp hs).1, hname⟩
      · exact h.declared
  have hperm : (declaredNames after).Perm (declaredNames before ++ [name]) :=
    (List.perm_ext_iff_of_nodup ((declaredNames_sorted after).imp ne_of_lt) (hsorted.imp ne_of_lt)).mpr hmem
  exact hperm.eq_of_pairwise (fun a b _ _ hab hba => absurd hba (lt_asymm hab)) (declaredNames_sorted after) hsorted

/-- **A module whose name comes last is given the last number**, and the others keep theirs. -/
theorem AddsModule.get_ids (h : AddsModule before after name) (hlast : ComesLast before name) (other : String) :
    (moduleIds after).get? other = if name = other then some (declaredNames before).length else (moduleIds before).get? other := by
  have hids : moduleIds after = (moduleIds before).insert name (min (declaredNames before).length (2 ^ 32 - 1)) := by
    show OrdMap.ofList ((declaredNames after).zipIdx.map _) = OrdMap.insert (OrdMap.ofList ((declaredNames before).zipIdx.map _)) _ _
    rw [h.declaredNames_eq hlast, List.zipIdx_append, List.map_append]
    unfold OrdMap.ofList
    rw [List.foldl_append, Nat.zero_add]
    rfl
  rw [hids, OrdMap.get?_insert, min_eq_left hlast.few.le]

theorem ids_lt {sources : List ModuleSource} {k : Nat} (h : (moduleIds sources).get? name = some k) :
    k < (declaredNames sources).length := by
  obtain ⟨⟨other, i⟩, hmem, heq⟩ := List.mem_map.mp (OrdMap.mem_of_get?_ofList h)
  cases heq
  have hi : i < (declaredNames sources).length := (List.getElem?_eq_some_iff.mp (List.mem_zipIdx_iff_getElem?.mp hmem)).1
  exact (min_le_left _ _).trans_lt hi

/-! ## The files of a module -/

/-- The files of another module are what they were. -/
theorem AddsModule.filter_placed (h : AddsModule before after name) (hlast : ComesLast before name) {k : Nat}
    (hk : k ≠ (declaredNames before).length) :
    after.filter (placed (moduleIds after) k) = before.filter (placed (moduleIds before) k) := by
  rw [h.files, List.filter_filter]
  refine List.filter_congr fun source _ => ?_
  rw [← h.files]
  unfold placed
  cases hname : moduleName source.ast with
  | none => simp
  | some other =>
    rw [Option.bind_some, Option.bind_some, h.get_ids hlast]
    by_cases heq : name = other
    · simp [heq, hk.symm]
    · simp [heq, Ne.symm heq]

theorem AddsModule.itemsIn_eq (h : AddsModule before after name) (hlast : ComesLast before name) {k : Nat}
    (hk : k ≠ (declaredNames before).length) : itemsIn (moduleIds after) k after = itemsIn (moduleIds before) k before := by
  unfold itemsIn
  rw [h.filter_placed hlast hk]

theorem AddsModule.placed_iff (h : AddsModule before after name) (hlast : ComesLast before name) {k : Nat}
    (hk : k ≠ (declaredNames before).length) {source : ModuleSource} :
    source ∈ after ∧ placed (moduleIds after) k source = true ↔ source ∈ before ∧ placed (moduleIds before) k source = true := by
  rw [← List.mem_filter, ← List.mem_filter, h.filter_placed hlast hk]

end

/-! ## The modules -/

/-- The two packages have the same module, but for what it depends on. -/
structure SameModule (m m' : ResolvedModule) : Prop where
  id : m'.id = m.id
  name : m'.name = m.name
  files : m'.files = m.files
  definitions : m'.definitions = m.definitions
  imports : m'.imports = m.imports

section
variable {before after : List ModuleSource} {name : String} {modules modules' : ModuleMap}

theorem AddsModule.definitions_eq (h : AddsModule before after name) (hlast : ComesLast before name)
    (hgraph : Graph (moduleIds before) before modules) (hgraph' : Graph (moduleIds after) after modules') {k : Nat}
    (hk : k ≠ (declaredNames before).length) {m m' : ResolvedModule} (hm : modules.get? k = some m)
    (hm' : modules'.get? k = some m') : m'.definitions = m.definitions := by
  refine OrdMap.ext_get? fun other => Option.ext fun d => ?_
  have hdefined' := hgraph'.definitions k m' hm'
  rw [h.itemsIn_eq hlast hk] at hdefined'
  exact (hdefined'.get_iff other d).trans ((hgraph.definitions k m hm).get_iff other d).symm

/-- Every module but the new one was there. -/
theorem AddsModule.get_before (h : AddsModule before after name) (hlast : ComesLast before name)
    (hgraph : Graph (moduleIds before) before modules) (hgraph' : Graph (moduleIds after) after modules') {k : Nat}
    (hk : k ≠ (declaredNames before).length) {m' : ResolvedModule} (hm' : modules'.get? k = some m') :
    ∃ source ∈ before, placed (moduleIds before) k source = true ∧ ∃ m, modules.get? k = some m := by
  have hid := hgraph'.name k m' hm'
  obtain ⟨source, hs, hname⟩ := source_of_id hid
  have hplaced : placed (moduleIds after) k source = true := decide_eq_true (by rw [hname]; exact hid)
  obtain ⟨hs, hplaced⟩ := (h.placed_iff hlast hk).mp ⟨hs, hplaced⟩
  obtain ⟨k', m, hk', hm⟩ := hgraph.declared source hs
  have heq : k' = k := Option.some.inj ((of_decide_eq_true hk').symm.trans (of_decide_eq_true hplaced))
  exact ⟨source, hs, hplaced, m, heq ▸ hm⟩

theorem AddsModule.get_after (h : AddsModule before after name) (hlast : ComesLast before name)
    (hgraph : Graph (moduleIds before) before modules) (hgraph' : Graph (moduleIds after) after modules') {k : Nat}
    {m : ResolvedModule} (hm : modules.get? k = some m) :
    k ≠ (declaredNames before).length ∧ ∃ m', modules'.get? k = some m' := by
  have hid := hgraph.name k m hm
  have hk := (ids_lt hid).ne
  obtain ⟨source, hs, hname⟩ := source_of_id hid
  have hplaced : placed (moduleIds before) k source = true := decide_eq_true (by rw [hname]; exact hid)
  obtain ⟨hs', hplaced'⟩ := (h.placed_iff hlast hk).mpr ⟨hs, hplaced⟩
  obtain ⟨k', m', hk', hm'⟩ := hgraph'.declared source hs'
  have heq : k' = k := Option.some.inj ((of_decide_eq_true hk').symm.trans (of_decide_eq_true hplaced'))
  exact ⟨hk, m', heq ▸ hm'⟩

/-- An import resolves as before. -/
theorem AddsModule.binds_iff (h : AddsModule before after name) (hlast : ComesLast before name)
    (hgraph : Graph (moduleIds before) before modules) (hgraph' : Graph (moduleIds after) after modules') {k : Nat}
    {source : ModuleSource} (hs : source ∈ before) {node : UseNode} (hnode : node ∈ source.ast.imports) {localName : String}
    {i : ResolvedImport} : Binds (moduleIds after) modules' ⟨k, source.file, node⟩ localName i ↔
      Binds (moduleIds before) modules ⟨k, source.file, node⟩ localName i := by
  have hid : (moduleIds after).get? (joinPath node.path.dropLast) = (moduleIds before).get? (joinPath node.path.dropLast) := by
    rw [h.get_ids hlast, if_neg (h.unused source hs node hnode).symm]
  constructor
  · rintro ⟨symbol, target, m', d, hsymbol, htarget, hm', hd, hrest⟩
    have htarget' := hid.symm.trans htarget
    have hk := (ids_lt htarget').ne
    obtain ⟨-, -, -, m, hm⟩ := h.get_before hlast hgraph hgraph' hk hm'
    rw [h.definitions_eq hlast hgraph hgraph' hk hm hm'] at hd
    exact ⟨symbol, target, m, d, hsymbol, htarget', hm, hd, hrest⟩
  · rintro ⟨symbol, target, m, d, hsymbol, htarget, hm, hd, hrest⟩
    obtain ⟨hk, m', hm'⟩ := h.get_after hlast hgraph hgraph' hm
    rw [← h.definitions_eq hlast hgraph hgraph' hk hm hm'] at hd
    exact ⟨symbol, target, m', d, hsymbol, hid.trans htarget, hm', hd, hrest⟩

/-- **A module is the same in both packages**, where the files under a number have one name. -/
theorem AddsModule.sameModule (h : AddsModule before after name) (hlast : ComesLast before name)
    (hgraph : Graph (moduleIds before) before modules) (hgraph' : Graph (moduleIds after) after modules')
    (hnamed : ∀ source ∈ after, ∀ k m, placed (moduleIds after) k source = true → modules'.get? k = some m →
      moduleName source.ast = some m.name) {k : Nat} {m m' : ResolvedModule} (hm : modules.get? k = some m)
    (hm' : modules'.get? k = some m') : SameModule m m' := by
  obtain ⟨hk, -⟩ := h.get_after hlast hgraph hgraph' hm
  refine ⟨(hgraph'.id k m' hm').trans (hgraph.id k m hm).symm, ?_, ?_, h.definitions_eq hlast hgraph hgraph' hk hm hm', ?_⟩
  · have hid := hgraph.name k m hm
    obtain ⟨source, hs, hname⟩ := source_of_id hid
    have hplaced : placed (moduleIds before) k source = true := decide_eq_true (by rw [hname]; exact hid)
    obtain ⟨hs', hplaced'⟩ := (h.placed_iff hlast hk).mpr ⟨hs, hplaced⟩
    exact Option.some.inj ((hnamed source hs' k m' hplaced' hm').symm.trans hname)
  · rw [hgraph'.files k m' hm', hgraph.files k m hm, filesIn, filesIn, h.filter_placed hlast hk]
  · refine OrdMap.ext_get? fun localName => Option.ext fun i => ?_
    refine (hgraph'.imports k m' hm' localName i).trans (Iff.trans ?_ (hgraph.imports k m hm localName i).symm)
    constructor
    · rintro ⟨source, hs, hplaced, node, hnode, hbinds⟩
      obtain ⟨hs, hplaced⟩ := (h.placed_iff hlast hk).mp ⟨hs, hplaced⟩
      exact ⟨source, hs, hplaced, node, hnode, (h.binds_iff hlast hgraph hgraph' hs hnode).mp hbinds⟩
    · rintro ⟨source, hs, hplaced, node, hnode, hbinds⟩
      obtain ⟨hs', hplaced'⟩ := (h.placed_iff hlast hk).mpr ⟨hs, hplaced⟩
      exact ⟨source, hs', hplaced', node, hnode, (h.binds_iff hlast hgraph hgraph' hs hnode).mpr hbinds⟩

end

/-! ## The plan -/

/-- The member identities of a module, and the index after them. -/
def ownPlan (asts : OrdMap String SourceFile) (m : ResolvedModule) : OrdMap String DefId × Nat :=
  (moduleKeys asts m.files).foldl (fun r key => (r.1.insert key ⟨m.id, r.2⟩, r.2 + 1))
    (OrdMap.empty, m.definitions.entries.length)

theorem planMembers_own {name : String} {k : Nat} : ∀ (keys : List String) (members : OrdMap (String ×ₗ String) DefId) (next : Nat),
    (ownMembers (planMembers name k keys members next).1 name, (planMembers name k keys members next).2) =
      keys.foldl (fun r key => (r.1.insert key ⟨k, r.2⟩, r.2 + 1)) (ownMembers members name, next)
  | [], _, _ => rfl
  | key :: keys, members, next => by
    rw [List.foldl_cons, ← ownMembers_insert]
    exact planMembers_own keys (members.insert (toLex (name, key)) ⟨k, next⟩) (next + 1)

/-- The plan gives a module's members what the module alone would. -/
structure PlansOwn (asts : OrdMap String SourceFile) (plan : IdentityPlan) (m : ResolvedModule) : Prop where
  members : ownMembers plan.members m.name = (ownPlan asts m).1
  next : plan.nextByModule.get? m.id = some (ownPlan asts m).2

theorem plansOwn_graph {ids : OrdMap String Nat} {sources : List ModuleSource} {modules : ModuleMap}
    (hgraph : Graph ids sources modules) {asts : OrdMap String SourceFile} {analysis : ModuleAnalysis}
    (hmodules : analysis.modules = modules.values) {k : Nat} {m : ResolvedModule} (hm : modules.get? k = some m) :
    PlansOwn asts (planIdentities analysis asts) m := by
  refine graph_each hgraph hmodules (fun plan m _ hnew => ?_) (fun plan m m' hname hid hq => ?_) hm
  · have hempty : ownMembers plan.members m.name = OrdMap.empty :=
      OrdMap.ext_get? fun key => by rw [ownMembers_get, hnew, OrdMap.get?_empty]
    have hown := @planMembers_own m.name m.id (moduleKeys asts m.files) plan.members m.definitions.entries.length
    rw [hempty] at hown
    refine ⟨congrArg Prod.fst hown, ?_⟩
    rw [planModule, OrdMap.get?_insert, if_pos rfl]
    exact congrArg (fun r : OrdMap String DefId × Nat => some r.2) hown
  · refine ⟨Eq.trans (OrdMap.ext_get? fun key => ?_) hq.members, ?_⟩
    · rw [ownMembers_get, ownMembers_get]
      exact planMembers_get_ne fun h => hname h.symm
    · rw [planModule, OrdMap.get?_insert, if_neg hid]
      exact hq.next

/-! ## The names a module sees -/

section
variable {asts asts' : OrdMap String SourceFile} {analysis analysis' : ModuleAnalysis} {modules modules' : ModuleMap}
  {s s' : LinkState} {p p' : HirProgram} {name : String} {k : Nat} {m m' : ResolvedModule}

theorem AddsModule.same (h : AddsModule (moduleSources asts) (moduleSources asts') name)
    (hlast : ComesLast (moduleSources asts) name) (w : LinkedFrom asts analysis modules s p)
    (w' : LinkedFrom asts' analysis' modules' s' p') (hm : modules.get? k = some m) (hm' : modules'.get? k = some m') :
    SameModule m m' := h.sameModule hlast w.graph w'.graph w'.parts.named hm hm'

theorem LinkedFrom.plansOwn (w : LinkedFrom asts analysis modules s p) (hm : modules.get? k = some m) :
    PlansOwn asts (planIdentities analysis asts) m := plansOwn_graph w.graph w.modules_eq hm

theorem AddsModule.ownPlan_eq (h : AddsModule (moduleSources asts) (moduleSources asts') name)
    (hlast : ComesLast (moduleSources asts) name) (w : LinkedFrom asts analysis modules s p)
    (w' : LinkedFrom asts' analysis' modules' s' p') (hm : modules.get? k = some m) (hm' : modules'.get? k = some m') :
    ownPlan asts' m' = ownPlan asts m := by
  have hsame := h.same hlast w w' hm hm'
  have hkeys : moduleKeys asts' m.files = moduleKeys asts m.files := by
    refine List.flatMap_congr fun file hfile => ?_
    rw [w.graph.files k m hm] at hfile
    obtain ⟨source, hs, rfl⟩ := List.mem_map.mp hfile
    have hbefore := List.mem_of_mem_filter hs
    rw [get_ast hbefore, get_ast (h.mem_before.mp hbefore).1]
  unfold ownPlan
  rw [hsame.files, hsame.id, hsame.definitions, hkeys]

/-- **The members of a module are planned alike.** -/
theorem AddsModule.ownMembers_eq (h : AddsModule (moduleSources asts) (moduleSources asts') name)
    (hlast : ComesLast (moduleSources asts) name) (w : LinkedFrom asts analysis modules s p)
    (w' : LinkedFrom asts' analysis' modules' s' p') (hm : modules.get? k = some m) (hm' : modules'.get? k = some m') :
    ownMembers (planIdentities analysis' asts').members m.name = ownMembers (planIdentities analysis asts).members m.name := by
  have hown := (w.plansOwn hm).members
  have hown' := (w'.plansOwn hm').members
  rw [(h.same hlast w w' hm hm').name, h.ownPlan_eq hlast w w' hm hm'] at hown'
  rw [hown, hown']

theorem AddsModule.ownGlobals_eq (h : AddsModule (moduleSources asts) (moduleSources asts') name)
    (hlast : ComesLast (moduleSources asts) name) (w : LinkedFrom asts analysis modules s p)
    (w' : LinkedFrom asts' analysis' modules' s' p') (hm : modules.get? k = some m) (hm' : modules'.get? k = some m') :
    ownGlobals (planIdentities analysis' asts') m' m'.name = ownGlobals (planIdentities analysis asts) m m.name := by
  have hsame := h.same hlast w w' hm hm'
  have hplans := w.plans hm
  have hplans' := w'.plans hm'
  unfold ownGlobals
  rw [hsame.definitions, hsame.name]
  refine congrArg OrdMap.ofList (List.filterMap_congr fun other hother => ?_)
  obtain ⟨d, hd⟩ := OrdMap.mem_keys_iff.mp hother
  have htop := hplans'.top other d (hsame.definitions ▸ hd)
  rw [hsame.name, hsame.id] at htop
  rw [hplans.top other d hd, htop]

/-- The target of an import is the same item of the same module. -/
theorem AddsModule.targets (h : AddsModule (moduleSources asts) (moduleSources asts') name)
    (hlast : ComesLast (moduleSources asts) name) (w : LinkedFrom asts analysis modules s p)
    (w' : LinkedFrom asts' analysis' modules' s' p') {i : ResolvedImport} {j : Nat} {t : ResolvedModule} {q : String × Item}
    (ht : Targets (moduleIds (moduleSources asts)) (moduleSources asts) modules i k j t q) :
    ∃ t', Targets (moduleIds (moduleSources asts')) (moduleSources asts') modules' i k j t' q := by
  obtain ⟨hk, t', ht'⟩ := h.get_after hlast w.graph w'.graph ht.module
  exact ⟨t', ht', by rw [h.itemsIn_eq hlast hk]; exact ht.item, ht.definition⟩

theorem AddsModule.planImports_eq (h : AddsModule (moduleSources asts) (moduleSources asts') name)
    (hlast : ComesLast (moduleSources asts) name) (w : LinkedFrom asts analysis modules s p)
    (w' : LinkedFrom asts' analysis' modules' s' p') {file : String} : ∀ {is : List ResolvedImport} {names : PlannedNames},
    (∀ i ∈ is, ∃ k j t q, Targets (moduleIds (moduleSources asts)) (moduleSources asts) modules i k j t q) →
      is.foldl (planImport asts' analysis' (planIdentities analysis' asts') file) names =
        is.foldl (planImport asts analysis (planIdentities analysis asts) file) names
  | [], _, _ => rfl
  | i :: is, names, hi => by
    obtain ⟨k, j, t, q, ht⟩ := hi i List.mem_cons_self
    obtain ⟨t', ht'⟩ := h.targets hlast w w' ht
    have hmembers : ∀ key, (planIdentities analysis' asts').members.get? (toLex (t'.name, key)) =
        (planIdentities analysis asts).members.get? (toLex (t.name, key)) := fun key => by
      rw [(h.same hlast w w' ht.module ht'.module).name, ← ownMembers_get, ← ownMembers_get,
        h.ownMembers_eq hlast w w' ht.module ht'.module]
    rw [List.foldl_cons, List.foldl_cons, planImport_eq w.graph w.modules_eq ht, planImport_eq w'.graph w'.modules_eq ht']
    simp only [hmembers]
    exact h.planImports_eq hlast w w' fun i hi' => hi i (List.mem_cons_of_mem _ hi')

/-- **A module sees the same names.** -/
theorem AddsModule.namesOf_eq (h : AddsModule (moduleSources asts) (moduleSources asts') name)
    (hlast : ComesLast (moduleSources asts) name) (w : LinkedFrom asts analysis modules s p)
    (w' : LinkedFrom asts' analysis' modules' s' p') (hm : modules.get? k = some m) (hm' : modules'.get? k = some m') :
    namesOf asts' analysis' m' = namesOf asts analysis m := by
  have hsame := h.same hlast w w' hm hm'
  have hmembers : ownMembers (planIdentities analysis' asts').members m'.name =
      ownMembers (planIdentities analysis asts).members m.name := by
    rw [hsame.name]
    exact h.ownMembers_eq hlast w w' hm hm'
  unfold namesOf plannedNames
  rw [h.ownGlobals_eq hlast w w' hm hm', hmembers, hsame.imports]
  refine h.planImports_eq hlast w w' fun i hi => ?_
  obtain ⟨⟨localName, i'⟩, hentry, rfl⟩ := List.mem_map.mp hi
  exact (exists_targets w.graph hm (OrdMap.get?_eq_some_iff.mpr hentry)).2

/-! ## The analysis of a file -/

theorem sourceAnalyses_get (hgraph : Graph (moduleIds (moduleSources asts)) (moduleSources asts)
    (linkModules (moduleSources asts)).modules) {source : ModuleSource} (hs : source ∈ moduleSources asts)
    (hm : (linkModules (moduleSources asts)).modules.get? k = some m) (hname : moduleName source.ast = some m.name) :
    (analyzeModules (moduleSources asts)).sourceAnalyses.get? source.file = some (analyzeWithImports source.file source.ast
      (importsFor (moduleItems (moduleSources asts) (linkModules (moduleSources asts)).modules) m source)) := by
  have hmodule : moduleOf (linkModules (moduleSources asts)).modules source = some m := by
    rw [moduleOf, hname, Option.bind_some]
    exact find_name hgraph hm
  rw [analyzeModules, byFile_moduleSources]
  refine (analyzeSourceBodies_get (nodup_files asts) _ hs).trans ?_
  rw [hmodule]
  rfl

/-- A file sees the same of the others. -/
theorem AddsModule.importsFor_eq (h : AddsModule (moduleSources asts) (moduleSources asts') name)
    (hlast : ComesLast (moduleSources asts) name) (w : LinkedFrom asts analysis modules s p)
    (w' : LinkedFrom asts' analysis' modules' s' p') (hm : modules.get? k = some m) (hm' : modules'.get? k = some m')
    (source : ModuleSource) :
    importsFor (moduleItems (moduleSources asts') modules') m' source =
      importsFor (moduleItems (moduleSources asts) modules) m source := by
  have hsame := h.same hlast w w' hm hm'
  have hitem : ∀ {k j : Nat} {t : ResolvedModule} {q : String × Item}, modules.get? k = some t →
      (itemsIn (moduleIds (moduleSources asts)) k (moduleSources asts))[j]? = some q →
        (moduleItems (moduleSources asts') modules').get? ⟨k, j⟩ = (moduleItems (moduleSources asts) modules).get? ⟨k, j⟩ := by
    intro k j t q ht hq
    obtain ⟨hk, t', ht'⟩ := h.get_after hlast w.graph w'.graph ht
    rw [moduleItems_get w.graph (nodup_files asts) ht hq,
      moduleItems_get w'.graph (nodup_files asts') ht' (by rw [h.itemsIn_eq hlast hk]; exact hq)]
  unfold importsFor
  rw [hsame.imports, hsame.definitions]
  refine congrArg₂ (· ++ ·) (List.filterMap_congr fun i hi => ?_) (List.filterMap_congr fun d hd => ?_)
  · obtain ⟨⟨localName, i'⟩, hentry, rfl⟩ := List.mem_map.mp hi
    obtain ⟨-, k', j, t, q, ht⟩ := exists_targets w.graph hm (OrdMap.get?_eq_some_iff.mpr hentry)
    dsimp only
    rw [ht.definition, hitem ht.module ht.item]
  · obtain ⟨⟨other, d'⟩, hentry, rfl⟩ := List.mem_map.mp hd
    obtain ⟨j, q, hq, -, hd'⟩ := ((w.graph.definitions k m hm).get_iff _ _).mp (OrdMap.get?_eq_some_iff.mpr hentry)
    dsimp only
    rw [hd']
    dsimp only [moduleDefinition]
    rw [hitem hm hq]

end

end Package
end Syllog
