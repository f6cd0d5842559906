import Syllog.ModuleGraph
/-!
# GraphSound — what a graph without diagnostics holds

Where nothing is reported, a module's definitions are the items of its files, numbered in order and each under its own name;
its imports are the definitions its `use` lines name, each under a local name that nothing else in the module has.
-/
namespace Syllog
namespace Modules

open Hir Ast Semantic

/-! ## The items of a module -/

/-- A file belongs to the module numbered `k`. -/
def placed (ids : OrdMap String Nat) (k : Nat) (source : ModuleSource) : Bool := (moduleName source.ast).bind ids.get? = some k

/-- The items of a module with their files, in the order of its files. -/
def itemsIn (ids : OrdMap String Nat) (k : Nat) (sources : List ModuleSource) : List (String × Item) :=
  (sources.filter (placed ids k)).flatMap fun source => source.ast.items.map (source.file, ·)

def filesIn (ids : OrdMap String Nat) (k : Nat) (sources : List ModuleSource) : List String :=
  (sources.filter (placed ids k)).map (·.file)

/-- The definitions of a module are `items`, numbered in order, with names of their own. -/
structure Defined (k : Nat) (items : List (String × Item)) (definitions : OrdMap String ModuleDefinition) : Prop where
  nodup : (items.map (·.2.name)).Nodup
  get_iff : ∀ name d, definitions.get? name = some d ↔
    ∃ j p, items[j]? = some p ∧ p.2.name = name ∧ d = moduleDefinition k j p.1 p.2

theorem defined_nil (k : Nat) : Defined k [] OrdMap.empty := ⟨List.nodup_nil, fun name d => by simp⟩

theorem Defined.contains_iff {k : Nat} {items : List (String × Item)} {definitions : OrdMap String ModuleDefinition}
    (h : Defined k items definitions) {name : String} : definitions.contains name = true ↔ name ∈ items.map (·.2.name) := by
  rw [OrdMap.contains, Option.isSome_iff_exists]
  constructor
  · rintro ⟨d, hd⟩
    obtain ⟨j, p, hp, rfl, -⟩ := (h.get_iff name d).mp hd
    exact List.mem_map_of_mem (List.mem_of_getElem? hp)
  · intro hname
    obtain ⟨p, hp, rfl⟩ := List.mem_map.mp hname
    obtain ⟨j, hj⟩ := List.mem_iff_getElem?.mp hp
    exact ⟨_, (h.get_iff _ _).mpr ⟨j, p, hj, rfl, rfl⟩⟩

/-- Entering an item under a name the module does not have. -/
theorem Defined.snoc {k : Nat} {items : List (String × Item)} {definitions : OrdMap String ModuleDefinition}
    (h : Defined k items definitions) {p : String × Item} (hnew : definitions.contains p.2.name = false) :
    Defined k (items ++ [p]) (definitions.insert p.2.name (moduleDefinition k items.length p.1 p.2)) := by
  have hout : p.2.name ∉ items.map (·.2.name) := fun hmem => by
    rw [h.contains_iff.mpr hmem] at hnew
    cases hnew
  refine ⟨?_, fun name d => ?_⟩
  · rw [List.map_append, List.nodup_append]
    refine ⟨h.nodup, List.nodup_singleton _, ?_⟩
    rintro name hname _ hname' rfl
    have heq : name = p.2.name := List.mem_singleton.mp hname'
    exact hout (heq ▸ hname)
  · rw [OrdMap.get?_insert]
    split_ifs with heq
    · subst heq
      constructor
      · rintro ⟨⟩
        exact ⟨items.length, p, by simp, rfl, rfl⟩
      · rintro ⟨j, q, hq, hname, rfl⟩
        rw [List.getElem?_append] at hq
        split_ifs at hq with hj
        · exact absurd (hname ▸ List.mem_map_of_mem (List.mem_of_getElem? hq)) hout
        · rw [List.getElem?_singleton] at hq
          split_ifs at hq with hzero
          cases hq
          rw [show j = items.length by omega]
    · rw [h.get_iff name d]
      constructor
      · rintro ⟨j, q, hq, hname, rfl⟩
        exact ⟨j, q, List.getElem?_append_left (List.getElem?_eq_some_iff.mp hq).1 ▸ hq, hname, rfl⟩
      · rintro ⟨j, q, hq, hname, rfl⟩
        rw [List.getElem?_append] at hq
        split_ifs at hq with hj
        · exact ⟨j, q, hq, hname, rfl⟩
        · rw [List.getElem?_singleton] at hq
          split_ifs at hq with hzero
          cases hq
          exact absurd hname heq

/-! ## Collecting -/

theorem collectItem_silent {id : Nat} {name file : String} {r : ResolvedModule × Nat × List Diagnostic} {item : Item}
    (h : (collectItem id name file r item).2.2 = []) : r.2.2 = [] ∧ r.1.definitions.contains item.name = false ∧
      collectItem id name file r item =
        ({ r.1 with definitions := r.1.definitions.insert item.name (moduleDefinition id r.2.1 file item) }, r.2.1 + 1, []) := by
  unfold collectItem at h ⊢
  simp only at h ⊢
  split_ifs at h ⊢ with hcontains
  · simp at h
  · simp only at h
    rw [h]
    exact ⟨rfl, Bool.not_eq_true _ ▸ hcontains, rfl⟩

theorem collectItems_silent {id : Nat} {name file : String} : ∀ {items : List Item} {r : ResolvedModule × Nat × List Diagnostic}
    {before : List (String × Item)}, Defined id before r.1.definitions → r.2.1 = before.length →
      (items.foldl (collectItem id name file) r).2.2 = [] → r.2.2 = [] ∧ ∃ definitions,
        Defined id (before ++ items.map (file, ·)) definitions ∧ items.foldl (collectItem id name file) r =
          ({ r.1 with definitions := definitions }, before.length + items.length, [])
  | [], r, before, hdef, hnext, h => by
    rw [List.foldl_nil] at h
    refine ⟨h, r.1.definitions, by simpa using hdef, ?_⟩
    rw [List.foldl_nil, ← h, ← hnext]
    rfl
  | item :: items, r, before, hdef, hnext, h => by
    rw [List.foldl_cons] at h
    have hhead : (collectItem id name file r item).2.2 = [] :=
      Logged.foldl_silent_start (fun r : ResolvedModule × Nat × List Diagnostic => r.2.2)
        (fun s a hs => (collectItem_silent hs).1) h
    obtain ⟨hsilent, hnew, heq⟩ := collectItem_silent hhead
    rw [heq] at h
    obtain ⟨-, definitions, hdefined, hfold⟩ := @collectItems_silent id name file items _
      (before ++ [(file, item)]) (by rw [hnext]; exact hdef.snoc hnew) (by simp [hnext]) h
    refine ⟨hsilent, definitions, by simpa using hdefined, ?_⟩
    rw [List.foldl_cons, heq, hfold]
    simp only [List.length_append, List.length_cons, List.length_nil, Prod.mk.injEq, true_and, and_true]
    omega

theorem collectSource_grows (ids : OrdMap String Nat) (c : Collected) (source : ModuleSource)
    (h : (collectSource ids c source).diagnostics = []) : c.diagnostics = [] := by
  unfold collectSource at h
  split at h
  · simp at h
  split at h
  · exact h
  split at h
  · exact h
  · exact Logged.foldl_silent_start (fun r : ResolvedModule × Nat × List Diagnostic => r.2.2)
      (fun s a hs => (collectItem_silent hs).1) h

/-- The imports a file asks for. -/
def pendingOf (ids : OrdMap String Nat) (source : ModuleSource) : List PendingImport :=
  match (moduleName source.ast).bind ids.get? with
  | some k => source.ast.imports.map fun node => ⟨k, source.file, node⟩
  | none   => []

/-- What is known of the module numbered `k` once the files of `done` are collected. -/
structure Collects (ids : OrdMap String Nat) (done : List ModuleSource) (k : Nat) (m : ResolvedModule) : Prop where
  id : m.id = k
  name : ids.get? m.name = some k
  files : m.files = filesIn ids k done
  definitions : Defined k (itemsIn ids k done) m.definitions
  imports : m.imports = OrdMap.empty

structure Collecting (ids : OrdMap String Nat) (done : List ModuleSource) (c : Collected) : Prop where
  keys : ∀ k, c.modules.contains k = (emptyModules ids).contains k
  modules : ∀ k m, c.modules.get? k = some m → Collects ids done k m
  next : ∀ k, (c.nextIndices.get? k).getD 0 = (itemsIn ids k done).length
  pending : c.pending = done.flatMap (pendingOf ids)
  declared : ∀ source ∈ done, ∃ k, placed ids k source = true

section
variable {ids : OrdMap String Nat}

theorem emptyModules_get {k : Nat} {m : ResolvedModule} (h : (emptyModules ids).get? k = some m) : Collects ids [] k m := by
  obtain ⟨e, he, heq⟩ := List.mem_map.mp (OrdMap.mem_of_get?_ofList h)
  cases heq
  exact ⟨rfl, OrdMap.get?_eq_some_iff.mpr he, rfl, defined_nil _, rfl⟩

theorem emptyModules_contains {name : String} {k : Nat} (h : ids.get? name = some k) : (emptyModules ids).contains k = true := by
  have hmem : k ∈ (ids.entries.map fun e => (e.2,
      (⟨e.2, e.1, [], OrdMap.empty, OrdMap.empty, OrdMap.empty⟩ : ResolvedModule))).map (·.1) :=
    List.mem_map.mpr ⟨_, List.mem_map.mpr ⟨(name, k), OrdMap.get?_eq_some_iff.mp h, rfl⟩, rfl⟩
  rw [OrdMap.contains, Option.isSome_iff_exists]
  exact OrdMap.exists_get?_ofList hmem

theorem itemsIn_snoc (k : Nat) (done : List ModuleSource) (source : ModuleSource) :
    itemsIn ids k (done ++ [source]) =
      if placed ids k source then itemsIn ids k done ++ source.ast.items.map (source.file, ·) else itemsIn ids k done := by
  unfold itemsIn
  rw [List.filter_append]
  split_ifs with h <;> simp [h]

theorem filesIn_snoc (k : Nat) (done : List ModuleSource) (source : ModuleSource) :
    filesIn ids k (done ++ [source]) = if placed ids k source then filesIn ids k done ++ [source.file] else filesIn ids k done := by
  unfold filesIn
  rw [List.filter_append]
  split_ifs with h <;> simp [h]

theorem placed_eq {k : Nat} {source : ModuleSource} {name : String} (hname : moduleName source.ast = some name)
    (hid : ids.get? name = some k) (k' : Nat) : placed ids k' source = decide (k = k') := by
  simp [placed, hname, hid]

/-- The other modules stay as they are. -/
theorem Collects.skip {done : List ModuleSource} {k : Nat} {m : ResolvedModule} (h : Collects ids done k m)
    {source : ModuleSource} (hout : placed ids k source = false) : Collects ids (done ++ [source]) k m := by
  refine ⟨h.id, h.name, ?_, ?_, h.imports⟩
  · rw [filesIn_snoc, hout]
    exact h.files
  · rw [itemsIn_snoc, hout]
    exact h.definitions

/-- A collected file adds its items to its module and its imports to those asked for. -/
theorem Collecting.step {done : List ModuleSource} {c : Collected} (h : Collecting ids done c) {source : ModuleSource}
    (hids : ∀ name, moduleName source.ast = some name → ∃ k, ids.get? name = some k)
    (hsilent : (collectSource ids c source).diagnostics = []) : Collecting ids (done ++ [source]) (collectSource ids c source) := by
  unfold collectSource at hsilent ⊢
  cases hname : moduleName source.ast with
  | none => simp [hname] at hsilent
  | some name =>
    obtain ⟨k, hid⟩ := hids name hname
    obtain ⟨m, hm⟩ : ∃ m, c.modules.get? k = some m := by
      rw [← Option.isSome_iff_exists]
      exact (h.keys k).trans (emptyModules_contains hid)
    have hmodule := h.modules k m hm
    simp only [hname, hid, hm] at hsilent ⊢
    obtain ⟨-, definitions, hdefined, hfold⟩ := @collectItems_silent k name source.file source.ast.items _ (itemsIn ids k done) hmodule.definitions
      (h.next k) hsilent
    have hplaced := placed_eq hname hid
    refine ⟨fun k' => ?_, fun k' m' hm' => ?_, fun k' => ?_, ?_, ?_⟩
    · rw [hfold, OrdMap.contains, OrdMap.get?_insert, ← h.keys k', OrdMap.contains]
      split_ifs with heq
      · rw [← heq, hm]
        rfl
      · rfl
    · rw [hfold, OrdMap.get?_insert] at hm'
      split_ifs at hm' with heq
      · cases hm'
        subst heq
        refine ⟨hmodule.id, hmodule.name, ?_, ?_, hmodule.imports⟩
        · rw [filesIn_snoc, hplaced, if_pos (decide_eq_true rfl), ← hmodule.files]
        · rw [itemsIn_snoc, hplaced, if_pos (decide_eq_true rfl)]
          exact hdefined
      · exact (h.modules k' m' hm').skip (by rw [hplaced, decide_eq_false heq])
    · rw [hfold, OrdMap.get?_insert, itemsIn_snoc, hplaced]
      by_cases heq : k = k'
      · subst heq
        simp
      · rw [if_neg heq, h.next k', if_neg (by simpa using heq)]
    · rw [h.pending, List.flatMap_append]
      simp [pendingOf, hname, hid]
    · intro s hs
      rcases List.mem_append.mp hs with hs | hs
      · exact h.declared s hs
      · rw [List.mem_singleton.mp hs]
        exact ⟨k, by rw [hplaced]; exact decide_eq_true rfl⟩

theorem collectSources_collecting {sources : List ModuleSource}
    (hids : ∀ source ∈ sources, ∀ name, moduleName source.ast = some name → ∃ k, ids.get? name = some k)
    (hsilent : (collectSources sources ids).diagnostics = []) : Collecting ids sources (collectSources sources ids) := by
  refine Logged.foldl_silent Collected.diagnostics (P := Collecting ids) (collectSource_grows ids)
    (fun pre source post c hl hs hc => hc.step (hids source (by rw [hl]; simp)) hs) hsilent ?_
  exact ⟨fun k => rfl, fun k m hm => emptyModules_get hm, fun k => by simp [itemsIn], rfl,
    fun source hs => (List.not_mem_nil hs).elim⟩

/-! ## Imports -/

/-- What a `use` line gives its module: a public definition of the module it names, under its alias or its own name. -/
def Binds (ids : OrdMap String Nat) (modules : ModuleMap) (p : PendingImport) (localName : String) (i : ResolvedImport) : Prop :=
  ∃ symbol target m d, p.node.path.getLast? = some symbol ∧ ids.get? (joinPath p.node.path.dropLast) = some target ∧
    modules.get? target = some m ∧ m.definitions.get? symbol = some d ∧ d.isPublic = true ∧
    localName = p.node.aliasName.getD symbol ∧ i = ⟨localName, d.id, p.node.span⟩

theorem Binds.unique {modules : ModuleMap} {p : PendingImport} {localName localName' : String} {i i' : ResolvedImport}
    (h : Binds ids modules p localName i) (h' : Binds ids modules p localName' i') : localName = localName' ∧ i = i' := by
  obtain ⟨symbol, target, m, d, hsymbol, htarget, hm, hd, -, rfl, rfl⟩ := h
  obtain ⟨symbol', target', m', d', hsymbol', htarget', hm', hd', -, rfl, rfl⟩ := h'
  cases hsymbol.symm.trans hsymbol'
  cases htarget.symm.trans htarget'
  cases hm.symm.trans hm'
  cases hd.symm.trans hd'
  exact ⟨rfl, rfl⟩

/-- What is known of a module once the `use` lines of `done` are resolved. -/
structure Links (ids : OrdMap String Nat) (modules : ModuleMap) (done : List PendingImport) (k : Nat) (m : ResolvedModule) :
    Prop where
  origin : ∃ m₀, modules.get? k = some m₀ ∧ m.id = m₀.id ∧ m.name = m₀.name ∧ m.files = m₀.files ∧
    m.definitions = m₀.definitions
  imports : ∀ localName i, m.imports.get? localName = some i ↔ ∃ p ∈ done, p.owner = k ∧ Binds ids modules p localName i
  fresh : ∀ localName i, m.imports.get? localName = some i → m.definitions.contains localName = false

structure Linking (ids : OrdMap String Nat) (modules : ModuleMap) (done : List PendingImport) (r : Linked) : Prop where
  keys : ∀ k, r.modules.contains k = modules.contains k
  links : ∀ k m, r.modules.get? k = some m → Links ids modules done k m
  bound : ∀ p ∈ done, ∀ symbol, p.node.path.getLast? = some symbol →
    ∃ i, Binds ids modules p (p.node.aliasName.getD symbol) i

section
variable {modules : ModuleMap} {done : List PendingImport} {r : Linked} {p : PendingImport}

theorem bindImport_silent {target : Nat} {d : ModuleDefinition} {localName : String} {owner : ResolvedModule}
    (howner : r.modules.get? p.owner = some owner) (h : (bindImport r p target d localName).diagnostics = []) :
    r.diagnostics = [] ∧ owner.definitions.contains localName = false ∧ owner.imports.contains localName = false ∧
      (bindImport r p target d localName).modules = r.modules.insert p.owner
        { owner with dependencies := owner.dependencies.insert target ()
                     imports := owner.imports.insert localName ⟨localName, d.id, p.node.span⟩ } := by
  unfold bindImport at h ⊢
  rw [howner] at h ⊢
  simp only at h ⊢
  by_cases hdup : owner.definitions.contains localName = true ∨ owner.imports.contains localName = true
  · rw [if_pos hdup] at h
    simp [Linked.report] at h
  · rw [if_neg hdup] at h ⊢
    obtain ⟨hdef, himp⟩ := not_or.mp hdup
    exact ⟨h, by simpa using hdef, by simpa using himp, rfl⟩

theorem bindImport_grows {target : Nat} {d : ModuleDefinition} {localName : String}
    (h : (bindImport r p target d localName).diagnostics = []) : r.diagnostics = [] := by
  cases howner : r.modules.get? p.owner with
  | none =>
    unfold bindImport at h
    rw [howner] at h
    exact h
  | some owner => exact (bindImport_silent howner h).1

theorem resolveImport_grows (ids : OrdMap String Nat) (r : Linked) (p : PendingImport)
    (h : (resolveImport ids r p).diagnostics = []) : r.diagnostics = [] := by
  unfold resolveImport at h
  split at h
  · exact h
  simp only at h
  split at h
  · simp [Linked.report] at h
  split at h
  · simp [Linked.report] at h
  split_ifs at h
  · exact bindImport_grows h
  · simp [Linked.report] at h

/-- A `use` line that reports nothing names nothing, or binds a public definition under a new local name. -/
theorem resolveImport_silent (h : (resolveImport ids r p).diagnostics = []) :
    (p.node.path.getLast? = none ∧ resolveImport ids r p = r) ∨ ∃ symbol target m d, p.node.path.getLast? = some symbol ∧
      ids.get? (joinPath p.node.path.dropLast) = some target ∧ r.modules.get? target = some m ∧
      m.definitions.get? symbol = some d ∧ d.isPublic = true ∧
      resolveImport ids r p = bindImport r p target d (p.node.aliasName.getD symbol) := by
  unfold resolveImport at h ⊢
  cases hsymbol : p.node.path.getLast? with
  | none => exact .inl ⟨rfl, rfl⟩
  | some symbol =>
    simp only [hsymbol] at h
    cases htarget : ids.get? (joinPath p.node.path.dropLast) with
    | none => simp [htarget, Linked.report] at h
    | some target =>
      simp only [htarget] at h
      cases hd : (r.modules.get? target).bind fun m => m.definitions.get? symbol with
      | none => simp [hd, Linked.report] at h
      | some d =>
        simp only [hd] at h
        obtain ⟨m, hm, hmd⟩ := Option.bind_eq_some_iff.mp hd
        by_cases hpublic : d.isPublic = true
        · exact .inr ⟨symbol, target, m, d, rfl, rfl, hm, hmd, hpublic, by simp [htarget, hm, hmd, hpublic]⟩
        · simp [hpublic, Linked.report] at h

theorem Links.skip {k : Nat} {m : ResolvedModule} (h : Links ids modules done k m)
    (hout : ∀ localName i, p.owner = k → ¬ Binds ids modules p localName i) : Links ids modules (done ++ [p]) k m := by
  refine ⟨h.origin, fun localName i => ?_, h.fresh⟩
  rw [h.imports localName i]
  constructor
  · rintro ⟨q, hq, hbinds⟩
    exact ⟨q, List.mem_append_left _ hq, hbinds⟩
  · rintro ⟨q, hq, howner, hbinds⟩
    rcases List.mem_append.mp hq with hq | hq
    · exact ⟨q, hq, howner, hbinds⟩
    · rw [List.mem_singleton.mp hq] at howner hbinds
      exact absurd hbinds (hout localName i howner)

/-- A new local name in its module. -/
theorem Links.bind {m : ResolvedModule} (h : Links ids modules done p.owner m) {localName : String} {i : ResolvedImport}
    (hbinds : Binds ids modules p localName i) (hdef : m.definitions.contains localName = false)
    (himp : m.imports.contains localName = false) (dependencies : OrdMap Nat Unit) :
    Links ids modules (done ++ [p]) p.owner
      { m with dependencies := dependencies, imports := m.imports.insert localName i } := by
  have hnone : m.imports.get? localName = none := by simpa [OrdMap.contains] using himp
  refine ⟨h.origin, fun n i' => ?_, fun n i' hn => ?_⟩
  · show (m.imports.insert localName i).get? n = some i' ↔ _
    rw [OrdMap.get?_insert]
    constructor
    · intro hget
      split_ifs at hget with heq
      · cases hget
        exact ⟨p, List.mem_append_right _ List.mem_cons_self, rfl, heq ▸ hbinds⟩
      · obtain ⟨q, hq, hq'⟩ := (h.imports n i').mp hget
        exact ⟨q, List.mem_append_left _ hq, hq'⟩
    · rintro ⟨q, hq, howner, hq'⟩
      rcases List.mem_append.mp hq with hq | hq
      · have hget := (h.imports n i').mpr ⟨q, hq, howner, hq'⟩
        have hne : localName ≠ n := by
          rintro rfl
          rw [hnone] at hget
          cases hget
        rw [if_neg hne]
        exact hget
      · rw [List.mem_singleton.mp hq] at hq'
        obtain ⟨rfl, rfl⟩ := hbinds.unique hq'
        rw [if_pos rfl]
  · rw [OrdMap.get?_insert] at hn
    split_ifs at hn with heq
    · exact heq ▸ hdef
    · exact h.fresh n i' hn

theorem Linking.step (h : Linking ids modules done r) (howner : ∃ m, modules.get? p.owner = some m)
    (hsilent : (resolveImport ids r p).diagnostics = []) : Linking ids modules (done ++ [p]) (resolveImport ids r p) := by
  have hlookup : ∀ k m₀, modules.get? k = some m₀ → ∃ m, r.modules.get? k = some m := by
    intro k m₀ hm₀
    rw [← Option.isSome_iff_exists]
    refine (h.keys k).trans ?_
    rw [OrdMap.contains, hm₀]
    rfl
  rcases resolveImport_silent hsilent with ⟨hnone, heq⟩ | ⟨symbol, target, m, d, hsymbol, htarget, hm, hd, hpublic, heq⟩
  · have hout : ∀ localName i, ¬ Binds ids modules p localName i := by
      rintro localName i ⟨symbol, _, _, _, hsymbol, -⟩
      rw [hnone] at hsymbol
      cases hsymbol
    rw [heq]
    refine ⟨h.keys, fun k m hm => (h.links k m hm).skip fun localName i _ => hout localName i, fun q hq symbol hs => ?_⟩
    rcases List.mem_append.mp hq with hq | hq
    · exact h.bound q hq symbol hs
    · rw [List.mem_singleton.mp hq, hnone] at hs
      cases hs
  · obtain ⟨m₀, hm₀⟩ := howner
    obtain ⟨owner, hown⟩ := hlookup _ _ hm₀
    rw [heq] at hsilent ⊢
    obtain ⟨-, hdef, himp, hmodules⟩ := bindImport_silent hown hsilent
    have hbinds : Binds ids modules p (p.node.aliasName.getD symbol) ⟨p.node.aliasName.getD symbol, d.id, p.node.span⟩ := by
      obtain ⟨t, ht, -, -, -, hdefs⟩ := (h.links target m hm).origin
      exact ⟨symbol, target, t, d, hsymbol, htarget, ht, hdefs ▸ hd, hpublic, rfl, rfl⟩
    refine ⟨fun k => ?_, fun k m' hm' => ?_, fun q hq symbol' hs => ?_⟩
    · rw [hmodules, OrdMap.contains, OrdMap.get?_insert, ← h.keys k, OrdMap.contains]
      split_ifs with hk
      · rw [← hk, hown]
        rfl
      · rfl
    · rw [hmodules, OrdMap.get?_insert] at hm'
      split_ifs at hm' with hk
      · cases hm'
        rw [← hk]
        exact (h.links p.owner owner hown).bind hbinds hdef himp _
      · exact (h.links k m' hm').skip fun localName i ho => absurd ho hk
    · rcases List.mem_append.mp hq with hq | hq
      · exact h.bound q hq symbol' hs
      · rw [List.mem_singleton.mp hq] at hs ⊢
        cases hsymbol.symm.trans hs
        exact ⟨_, hbinds⟩

theorem resolveImports_linking {c : Collected} (howner : ∀ p ∈ c.pending, ∃ m, c.modules.get? p.owner = some m)
    (himports : ∀ k m, c.modules.get? k = some m → m.imports = OrdMap.empty)
    (hsilent : (resolveImports ids c).diagnostics = []) : Linking ids c.modules c.pending (resolveImports ids c) := by
  refine Logged.foldl_silent Linked.diagnostics (P := Linking ids c.modules) (resolveImport_grows ids)
    (fun pre p post r hl hs hr => hr.step (howner p (by rw [hl]; simp)) hs) hsilent ?_
  refine ⟨fun k => rfl, fun k m hm => ⟨⟨m, hm, rfl, rfl, rfl, rfl⟩, fun localName i => ?_, fun localName i hi => ?_⟩,
    fun p hp => (List.not_mem_nil hp).elim⟩
  · rw [himports k m hm]
    simp
  · rw [himports k m hm] at hi
    cases hi

end
end

/-! ## The graph -/

/-- A graph in which nothing was reported. -/
structure Graph (ids : OrdMap String Nat) (sources : List ModuleSource) (modules : ModuleMap) : Prop where
  declared : ∀ source ∈ sources, ∃ k m, placed ids k source = true ∧ modules.get? k = some m
  id : ∀ k m, modules.get? k = some m → m.id = k
  name : ∀ k m, modules.get? k = some m → ids.get? m.name = some k
  files : ∀ k m, modules.get? k = some m → m.files = filesIn ids k sources
  definitions : ∀ k m, modules.get? k = some m → Defined k (itemsIn ids k sources) m.definitions
  imports : ∀ k m, modules.get? k = some m → ∀ localName i, m.imports.get? localName = some i ↔
    ∃ source ∈ sources, placed ids k source = true ∧ ∃ node ∈ source.ast.imports,
      Binds ids modules ⟨k, source.file, node⟩ localName i
  fresh : ∀ k m, modules.get? k = some m → ∀ localName i, m.imports.get? localName = some i →
    m.definitions.contains localName = false
  bound : ∀ source ∈ sources, ∀ k, placed ids k source = true → ∀ node ∈ source.ast.imports, ∀ symbol,
    node.path.getLast? = some symbol → ∃ i, Binds ids modules ⟨k, source.file, node⟩ (node.aliasName.getD symbol) i

theorem moduleIds_get {sources : List ModuleSource} {source : ModuleSource} (hs : source ∈ sources) {name : String}
    (hname : moduleName source.ast = some name) : ∃ k, (moduleIds sources).get? name = some k := by
  have hmem : name ∈ ((sources.filterMap fun source => moduleName source.ast).map (·, ())).map (·.1) := by
    rw [List.map_map]
    exact List.mem_map.mpr ⟨name, List.mem_filterMap.mpr ⟨source, hs, hname⟩, rfl⟩
  have hkey := OrdMap.mem_keys_iff.mpr (OrdMap.exists_get?_ofList hmem)
  obtain ⟨i, hi⟩ := List.mem_iff_getElem?.mp hkey
  refine OrdMap.exists_get?_ofList (List.mem_map.mpr ⟨_, List.mem_map.mpr ⟨(name, i), ?_, rfl⟩, rfl⟩)
  rw [List.mem_zipIdx_iff_getElem?]
  exact hi

theorem mem_pendingOf {ids : OrdMap String Nat} {source : ModuleSource} {p : PendingImport} :
    p ∈ pendingOf ids source ↔ placed ids p.owner source = true ∧ p.file = source.file ∧ p.node ∈ source.ast.imports := by
  unfold pendingOf placed
  cases hk : (moduleName source.ast).bind ids.get? with
  | none => simp
  | some k =>
    constructor
    · intro hp
      obtain ⟨node, hnode, rfl⟩ := List.mem_map.mp hp
      exact ⟨by simp, rfl, hnode⟩
    · rintro ⟨howner, hfile, hnode⟩
      have heq : k = p.owner := by simpa using howner
      obtain ⟨owner, file, node⟩ := p
      cases heq
      cases hfile
      exact List.mem_map_of_mem hnode

theorem mem_pending {ids : OrdMap String Nat} {sources : List ModuleSource} {p : PendingImport} :
    p ∈ sources.flatMap (pendingOf ids) ↔ ∃ source ∈ sources, placed ids p.owner source = true ∧ p.file = source.file ∧
      p.node ∈ source.ast.imports := by
  rw [List.mem_flatMap]
  exact exists_congr fun source => and_congr_right fun _ => mem_pendingOf

/-- Resolving imports changes no definition. -/
theorem Linking.binds_iff {ids : OrdMap String Nat} {modules : ModuleMap} {done : List PendingImport} {r : Linked}
    (h : Linking ids modules done r) {p : PendingImport} {localName : String} {i : ResolvedImport} :
    Binds ids modules p localName i ↔ Binds ids r.modules p localName i := by
  constructor
  · rintro ⟨symbol, target, m, d, hsymbol, htarget, hm, hd, hrest⟩
    obtain ⟨m', hm'⟩ : ∃ m', r.modules.get? target = some m' := by
      rw [← Option.isSome_iff_exists]
      refine (h.keys target).trans ?_
      rw [OrdMap.contains, hm]
      rfl
    obtain ⟨m₀, hm₀, -, -, -, hdefs⟩ := (h.links target m' hm').origin
    cases hm.symm.trans hm₀
    exact ⟨symbol, target, m', d, hsymbol, htarget, hm', hdefs ▸ hd, hrest⟩
  · rintro ⟨symbol, target, m', d, hsymbol, htarget, hm', hd, hrest⟩
    obtain ⟨m₀, hm₀, -, -, -, hdefs⟩ := (h.links target m' hm').origin
    exact ⟨symbol, target, m₀, d, hsymbol, htarget, hm₀, hdefs ▸ hd, hrest⟩

/-- **A graph without diagnostics holds the items and the imports of its files.** -/
theorem linkModules_graph {sources : List ModuleSource} (h : (linkModules sources).diagnostics = []) :
    Graph (moduleIds sources) sources (linkModules sources).modules := by
  have hcollected : (collectSources sources (moduleIds sources)).diagnostics = [] :=
    Logged.foldl_silent_start Linked.diagnostics (resolveImport_grows _) h
  have hcollect := collectSources_collecting (fun source hs name => moduleIds_get hs) hcollected
  have howner : ∀ source ∈ sources, ∀ k, placed (moduleIds sources) k source = true →
      ∃ m, (collectSources sources (moduleIds sources)).modules.get? k = some m := by
    intro source hs k hk
    obtain ⟨name, -, hid⟩ := Option.bind_eq_some_iff.mp (of_decide_eq_true hk)
    rw [← Option.isSome_iff_exists]
    exact (hcollect.keys k).trans (emptyModules_contains hid)
  have hlink : Linking _ _ _ (linkModules sources) := resolveImports_linking
    (fun p hp => by
      rw [hcollect.pending] at hp
      obtain ⟨source, hs, hk, -⟩ := mem_pending.mp hp
      exact howner source hs p.owner hk)
    (fun k m hm => (hcollect.modules k m hm).imports) h
  refine ⟨fun source hs => ?_, fun k m hm => ?_, fun k m hm => ?_, fun k m hm => ?_, fun k m hm => ?_,
    fun k m hm localName i => ?_, fun k m hm => (hlink.links k m hm).fresh, fun source hs k hk node hnode symbol hsymbol => ?_⟩
  · obtain ⟨k, hk⟩ := hcollect.declared source hs
    obtain ⟨m₀, hm₀⟩ := howner source hs k hk
    obtain ⟨m, hm⟩ : ∃ m, (linkModules sources).modules.get? k = some m := by
      rw [← Option.isSome_iff_exists]
      refine (hlink.keys k).trans ?_
      rw [OrdMap.contains, hm₀]
      rfl
    exact ⟨k, m, hk, hm⟩
  · obtain ⟨m₀, hm₀, hid, -⟩ := (hlink.links k m hm).origin
    exact hid.trans (hcollect.modules k m₀ hm₀).id
  · obtain ⟨m₀, hm₀, -, hname, -⟩ := (hlink.links k m hm).origin
    rw [hname]
    exact (hcollect.modules k m₀ hm₀).name
  · obtain ⟨m₀, hm₀, -, -, hfiles, -⟩ := (hlink.links k m hm).origin
    exact hfiles.trans (hcollect.modules k m₀ hm₀).files
  · obtain ⟨m₀, hm₀, -, -, -, hdefs⟩ := (hlink.links k m hm).origin
    rw [hdefs]
    exact (hcollect.modules k m₀ hm₀).definitions
  · rw [(hlink.links k m hm).imports localName i]
    constructor
    · rintro ⟨p, hp, rfl, hbinds⟩
      rw [hcollect.pending] at hp
      obtain ⟨source, hs, hk, hfile, hnode⟩ := mem_pending.mp hp
      refine ⟨source, hs, hk, p.node, hnode, ?_⟩
      rw [← hfile]
      exact hlink.binds_iff.mp hbinds
    · rintro ⟨source, hs, hk, node, hnode, hbinds⟩
      refine ⟨⟨k, source.file, node⟩, ?_, rfl, hlink.binds_iff.mpr hbinds⟩
      rw [hcollect.pending]
      exact mem_pending.mpr ⟨source, hs, hk, rfl, hnode⟩
  · have hp : (⟨k, source.file, node⟩ : PendingImport) ∈ (collectSources sources (moduleIds sources)).pending := by
      rw [hcollect.pending]
      exact mem_pending.mpr ⟨source, hs, hk, rfl, hnode⟩
    obtain ⟨i, hbinds⟩ := hlink.bound _ hp symbol hsymbol
    exact ⟨i, hlink.binds_iff.mp hbinds⟩

end Modules
end Syllog
