import Syllog.GraphSound
import Syllog.ImportedTypes
import Syllog.InterfaceRead
/-!
# Versions — two versions of a module in one project

Whatever is reported, a module's definitions are the first items of their names.  Where one module of a project is replaced
by a version with the same exports, every other module keeps its definitions and its imports, so a file of it sees the same
but for what it imports from that module.
-/
namespace Syllog
namespace Modules

open Hir Ast Semantic

/-! ## Two loops -/

section
variable {α σ τ : Type} {f : σ → α → σ} {g : τ → α → τ} {keep : α → Bool} {R : σ → τ → Prop}

theorem foldl_skips (hright : ∀ s t a, keep a = false → R s t → R s (g t a)) : ∀ {l : List α} {s : σ} {t : τ},
    (∀ a ∈ l, keep a = false) → R s t → R s (l.foldl g t)
  | [], _, _, _, h => h
  | a :: l, s, t, hl, h => by
    obtain ⟨ha, hl⟩ := List.forall_mem_cons.mp hl
    rw [List.foldl_cons]
    exact foldl_skips hright hl (hright s t a ha h)

/-- **Two loops that make the same of what both pass, and nothing of the rest.** -/
theorem foldl_filter_rel (hleft : ∀ s t a, keep a = false → R s t → R (f s a) t)
    (hright : ∀ s t a, keep a = false → R s t → R s (g t a)) (hboth : ∀ s t a, keep a = true → R s t → R (f s a) (g t a)) :
    ∀ {l l' : List α} {s : σ} {t : τ}, l.filter keep = l'.filter keep → R s t → R (l.foldl f s) (l'.foldl g t)
  | [], l', s, t, hl, h => foldl_skips hright (fun a ha => by simpa using List.filter_eq_nil_iff.mp hl.symm a ha) h
  | a :: l, l', s, t, hl, h => by
    rw [List.foldl_cons]
    cases ha : keep a with
    | false =>
      rw [List.filter_cons, if_neg (by simp [ha])] at hl
      exact foldl_filter_rel hleft hright hboth hl (hleft s t a ha h)
    | true =>
      rw [List.filter_cons, if_pos ha] at hl
      obtain ⟨before, after, rfl, hbefore, -, hafter⟩ := List.filter_eq_cons_iff.mp hl.symm
      rw [List.foldl_append, List.foldl_cons]
      refine foldl_filter_rel hleft hright hboth hafter.symm (hboth s _ a ha ?_)
      exact foldl_skips hright (fun b hb => by simpa using hbefore b hb) h

end

/-! ## The first item of a name -/

/-- The definition a name stands for: its first item, and the place of that item. -/
def firstDefinition (k : Nat) (items : List (String × Item)) (name : String) : Option ModuleDefinition :=
  (items.zipIdx.find? fun e => e.1.2.name = name).map fun e => moduleDefinition k e.2 e.1.1 e.1.2

def firstOf (items : List (String × Item)) (name : String) : Option (String × Item) := items.find? (·.2.name = name)

theorem firstDefinition_snoc (k : Nat) (items : List (String × Item)) (p : String × Item) (name : String) :
    firstDefinition k (items ++ [p]) name = (firstDefinition k items name).or
      (if p.2.name = name then some (moduleDefinition k items.length p.1 p.2) else none) := by
  rw [firstDefinition, List.zipIdx_append, List.find?_append, Option.map_or, firstDefinition]
  congr 1
  rw [Nat.zero_add, List.zipIdx_singleton, List.find?_singleton]
  split <;> simp_all

/-- It is where its first item is. -/
theorem firstDefinition_some {k : Nat} {items : List (String × Item)} {name : String} {d : ModuleDefinition}
    (h : firstDefinition k items name = some d) :
    ∃ j p, items[j]? = some p ∧ firstOf items name = some p ∧ p.2.name = name ∧ d = moduleDefinition k j p.1 p.2 := by
  obtain ⟨⟨p, j⟩, hfind, rfl⟩ := Option.map_eq_some_iff.mp h
  have hp := List.mem_zipIdx_iff_getElem?.mp (List.mem_of_find?_eq_some hfind)
  have hname : p.2.name = name := by simpa using List.find?_some hfind
  refine ⟨j, p, hp, ?_, hname, rfl⟩
  rw [firstOf, ← List.zipIdx_map_fst 0 items, List.find?_map]
  exact congrArg (Option.map Prod.fst) hfind

theorem firstDefinition_isSome (k : Nat) (items : List (String × Item)) (name : String) :
    (firstDefinition k items name).isSome = (firstOf items name).isSome := by
  rw [firstDefinition, Option.isSome_map, firstOf]
  conv_rhs => rw [← List.zipIdx_map_fst 0 items, List.find?_map, Option.isSome_map]
  rfl

/-! ## Collecting -/

/-- What is known of every graph: the modules have the names of their numbers and the first items as definitions. -/
structure Holding (ids : OrdMap String Nat) (sources : List ModuleSource) (modules : ModuleMap) : Prop where
  names : ∀ k, (modules.get? k).map (·.name) = ((emptyModules ids).get? k).map (·.name)
  definitions : ∀ k m, modules.get? k = some m → ∀ name, m.definitions.get? name = firstDefinition k (itemsIn ids k sources) name

structure Gathered (ids : OrdMap String Nat) (done : List ModuleSource) (c : Collected) : Prop where
  holding : Holding ids done c.modules
  imports : ∀ k m, c.modules.get? k = some m → m.imports = OrdMap.empty
  next : ∀ k, (c.nextIndices.get? k).getD 0 = (itemsIn ids k done).length
  pending : c.pending = done.flatMap (pendingOf ids)

section
variable {ids : OrdMap String Nat}

/-- An item of a module under its name, if it is the first. -/
theorem collectItem_first {id : Nat} {name file : String} {r : ResolvedModule × Nat × List Diagnostic}
    {before : List (String × Item)} (hdef : ∀ n, r.1.definitions.get? n = firstDefinition id before n)
    (hnext : r.2.1 = before.length) (item : Item) :
    (∀ n, (collectItem id name file r item).1.definitions.get? n = firstDefinition id (before ++ [(file, item)]) n) ∧
      (collectItem id name file r item).2.1 = before.length + 1 ∧ (collectItem id name file r item).1.name = r.1.name ∧
      (collectItem id name file r item).1.imports = r.1.imports := by
  have hcontains : r.1.definitions.contains item.name = (firstDefinition id before item.name).isSome := by
    rw [OrdMap.contains, hdef]
  unfold collectItem
  simp only
  split_ifs with hin
  · refine ⟨fun n => ?_, by rw [hnext], rfl, rfl⟩
    rw [hdef, firstDefinition_snoc]
    split_ifs with hname
    · obtain ⟨d, hd⟩ := Option.isSome_iff_exists.mp (hcontains.symm.trans hin)
      rw [← show item.name = n from hname, hd]
      rfl
    · rw [Option.or_none]
  · have hnone : (firstDefinition id before item.name).isSome = false := hcontains.symm.trans (Bool.not_eq_true _ ▸ hin)
    refine ⟨fun n => ?_, by rw [hnext], rfl, rfl⟩
    rw [firstDefinition_snoc, ← hnext, ← hdef]
    show (r.1.definitions.insert item.name (moduleDefinition id r.2.1 file item)).get? n = _
    rw [OrdMap.get?_insert]
    by_cases hname : item.name = n
    · rw [if_pos hname, if_pos hname, hdef, ← hname, Option.isSome_eq_false_iff.mp hnone |> Option.isNone_iff_eq_none.mp]
      rfl
    · rw [if_neg hname, if_neg hname, Option.or_none]

theorem collectItems_first {id : Nat} {name file : String} : ∀ {items : List Item} {r : ResolvedModule × Nat × List Diagnostic}
    {before : List (String × Item)}, (∀ n, r.1.definitions.get? n = firstDefinition id before n) → r.2.1 = before.length →
      (∀ n, (items.foldl (collectItem id name file) r).1.definitions.get? n =
        firstDefinition id (before ++ items.map (file, ·)) n) ∧
      (items.foldl (collectItem id name file) r).2.1 = before.length + items.length ∧
      (items.foldl (collectItem id name file) r).1.name = r.1.name ∧
      (items.foldl (collectItem id name file) r).1.imports = r.1.imports
  | [], r, before, hdef, hnext => ⟨fun n => by rw [List.map_nil, List.append_nil]; exact hdef n, hnext, rfl, rfl⟩
  | item :: items, r, before, hdef, hnext => by
    obtain ⟨hdef', hnext', hname, himports⟩ := @collectItem_first id name file r before hdef hnext item
    obtain ⟨hdefs, hcount, hnames, hall⟩ := @collectItems_first id name file items _ (before ++ [(file, item)]) hdef'
      (by rw [hnext', List.length_append]; rfl)
    refine ⟨fun n => ?_, ?_, hnames.trans hname, hall.trans himports⟩
    · rw [List.foldl_cons, hdefs n, List.map_cons, List.append_assoc]
      rfl
    · rw [List.foldl_cons, hcount, List.length_append, List.length_cons, List.length_cons, List.length_nil]
      omega

theorem emptyModules_holding : Holding ids [] (emptyModules ids) := by
  refine ⟨fun k => rfl, fun k m hm name => ?_⟩
  obtain ⟨e, -, heq⟩ := List.mem_map.mp (OrdMap.mem_of_get?_ofList hm)
  cases heq
  rfl

/-- A file that goes to no module. -/
theorem Gathered.skip {done : List ModuleSource} {c : Collected} (h : Gathered ids done c) {source : ModuleSource}
    (hout : (moduleName source.ast).bind ids.get? = none) (diagnostics : List Diagnostic) :
    Gathered ids (done ++ [source]) { c with diagnostics := diagnostics } := by
  have hitems : ∀ k, itemsIn ids k (done ++ [source]) = itemsIn ids k done := fun k => by
    rw [itemsIn_snoc, if_neg]
    simp [placed, hout]
  refine ⟨⟨h.holding.names, fun k m hm name => ?_⟩, h.imports, fun k => by rw [hitems, ← h.next k], ?_⟩
  · rw [hitems]
    exact h.holding.definitions k m hm name
  · rw [List.flatMap_append, ← h.pending]
    simp [pendingOf, hout]

theorem Gathered.step {done : List ModuleSource} {c : Collected} (h : Gathered ids done c) (source : ModuleSource) :
    Gathered ids (done ++ [source]) (collectSource ids c source) := by
  unfold collectSource
  cases hname : moduleName source.ast with
  | none => exact h.skip (by rw [hname]; rfl) _
  | some name =>
    cases hid : ids.get? name with
    | none =>
      simp only [hid]
      exact h.skip (by rw [hname]; exact hid) c.diagnostics
    | some id =>
      obtain ⟨m, hm⟩ : ∃ m, c.modules.get? id = some m := by
        have hsome := congrArg Option.isSome (h.holding.names id)
        rw [Option.isSome_map, Option.isSome_map] at hsome
        exact Option.isSome_iff_exists.mp (hsome.trans (emptyModules_contains hid))
      have hplaced := placed_eq hname hid
      obtain ⟨hdefs, hcount, hnames, himports⟩ := @collectItems_first id name source.file source.ast.items
        ({ m with files := m.files ++ [source.file] }, (c.nextIndices.get? id).getD 0, c.diagnostics) (itemsIn ids id done)
        (h.holding.definitions id m hm) (h.next id)
      simp only [hid, hm]
      refine ⟨⟨fun k => ?_, fun k m' hm' n => ?_⟩, fun k m' hm' => ?_, fun k => ?_, ?_⟩
      · rw [OrdMap.get?_insert]
        split
        · next heq =>
          rw [← heq, ← h.holding.names id, hm, Option.map_some, hnames]
          rfl
        · exact h.holding.names k
      · rw [OrdMap.get?_insert] at hm'
        rw [itemsIn_snoc, hplaced]
        split_ifs at hm' with heq
        · cases hm'
          subst heq
          rw [if_pos (decide_eq_true rfl)]
          exact hdefs n
        · rw [if_neg (by simpa using heq)]
          exact h.holding.definitions k m' hm' n
      · rw [OrdMap.get?_insert] at hm'
        split_ifs at hm' with heq
        · cases hm'
          exact himports.trans (h.imports id m hm)
        · exact h.imports k m' hm'
      · rw [OrdMap.get?_insert, itemsIn_snoc, hplaced]
        by_cases heq : id = k
        · subst heq
          rw [if_pos rfl, Option.getD_some, hcount, if_pos (decide_eq_true rfl), List.length_append, List.length_map]
        · rw [if_neg heq, h.next k, if_neg (by simpa using heq)]
      · rw [List.flatMap_append, ← h.pending]
        simp [pendingOf, hname, hid]

/-- **Collecting gathers the first items of every module.** -/
theorem collectSources_gathered (sources : List ModuleSource) : Gathered ids sources (collectSources sources ids) := by
  have hfold : ∀ (rest done : List ModuleSource) (c : Collected), Gathered ids done c →
      Gathered ids (done ++ rest) (rest.foldl (collectSource ids) c) := by
    intro rest
    induction rest with
    | nil => exact fun done c h => by rwa [List.append_nil]
    | cons source rest ih =>
      intro done c h
      have hlater := ih _ _ (h.step source)
      rwa [List.append_assoc] at hlater
  refine hfold sources [] _ ⟨emptyModules_holding, fun k m hm => ?_, fun k => rfl, rfl⟩
  obtain ⟨e, -, heq⟩ := List.mem_map.mp (OrdMap.mem_of_get?_ofList hm)
  cases heq
  rfl

/-! ## The items of definitions -/

variable {sources : List ModuleSource} {modules : ModuleMap}

/-- The first item of a name in its module is the first in its file. -/
theorem first_in_file (hfiles : (sources.map (·.file)).Nodup) {k : Nat} {name : String} {p : String × Item}
    (hp : firstOf (itemsIn ids k sources) name = some p) : ∃ source ∈ sources, source.file = p.1 ∧
      source.ast.items.find? (·.name = name) = some p.2 := by
  obtain ⟨source, hs, hk, hfile, hitem⟩ := mem_itemsIn.mp (List.mem_of_find?_eq_some hp)
  have hname : p.2.name = name := by simpa using List.find?_some hp
  refine ⟨source, hs, hfile.symm, ?_⟩
  obtain ⟨before, after, hsplit⟩ := List.append_of_mem (List.mem_filter.mpr ⟨hs, hk⟩)
  have hnodup : ((sources.filter (placed ids k)).map (·.file)).Nodup := hfiles.sublist (List.filter_sublist.map _)
  have hnone : (before.flatMap fun source => source.ast.items.map (source.file, ·)).find? (·.2.name = name) = none := by
    cases hfind : (before.flatMap fun source => source.ast.items.map (source.file, ·)).find? (·.2.name = name) with
    | none => rfl
    | some q =>
      exfalso
      rw [firstOf, itemsIn, hsplit, List.flatMap_append, List.find?_append, hfind] at hp
      cases hp
      obtain ⟨other, hother, hq⟩ := List.mem_flatMap.mp (List.mem_of_find?_eq_some hfind)
      obtain ⟨item, -, rfl⟩ := List.mem_map.mp hq
      rw [hsplit, List.map_append, List.map_cons, List.nodup_append] at hnodup
      exact hnodup.2.2 _ (List.mem_map_of_mem hother) _ List.mem_cons_self hfile
  rw [firstOf, itemsIn, hsplit, List.flatMap_append, List.find?_append, hnone, Option.none_or, List.flatMap_cons,
    List.find?_append, List.find?_map] at hp
  have hsome : (source.ast.items.find? (·.name = name)).isSome = true := by
    rw [List.find?_isSome]
    exact ⟨p.2, hitem, decide_eq_true hname⟩
  obtain ⟨found, hfound⟩ := Option.isSome_iff_exists.mp hsome
  have heq : some (source.file, found) = some p := by
    rw [← hp]
    show _ = ((source.ast.items.find? (·.name = name)).map (source.file, ·)).or _
    rw [hfound]
    rfl
  cases heq
  exact hfound

theorem find?_and {α : Type} {f g : α → Bool} : ∀ {l : List α} {a : α}, l.find? f = some a → g a = true →
    l.find? (fun x => f x && g x) = some a
  | b :: l, a, h, hg => by
    rw [List.find?_cons] at h ⊢
    cases hb : f b with
    | true =>
      rw [hb] at h
      cases h
      simp [hg]
    | false =>
      rw [hb] at h
      exact find?_and h hg

theorem itemOf_first (hfiles : (sources.map (·.file)).Nodup) {k : Nat} {name : String} {p : String × Item}
    (hp : firstOf (itemsIn ids k sources) name = some p) (j : Nat) : itemOf sources (moduleDefinition k j p.1 p.2) = some p.2 := by
  obtain ⟨source, hs, hfile, hfind⟩ := first_in_file hfiles hp
  have hname : p.2.name = name := by simpa using List.find?_some hp
  have hsource : sources.find? (·.file = p.1) = some source := by
    rw [← hfile]
    exact OrdMap.find?_of_nodup hfiles hs
  rw [itemOf]
  show (sources.find? (·.file = p.1)).bind _ = _
  rw [hsource, Option.bind_some]
  show source.ast.items.find? (fun item => item.name = p.2.name ∧ item.span = p.2.span) = _
  simp only [Bool.decide_and]
  exact find?_and (by rw [hname]; exact hfind) (decide_eq_true rfl)

/-- **The item under the identity of a definition is the first of its name.** -/
theorem moduleItems_first (h : Holding ids sources modules) (hfiles : (sources.map (·.file)).Nodup) {k : Nat} {m : ResolvedModule}
    (hm : modules.get? k = some m) {name : String} {d : ModuleDefinition}
    (hd : firstDefinition k (itemsIn ids k sources) name = some d) {p : String × Item}
    (hp : firstOf (itemsIn ids k sources) name = some p) : (moduleItems sources modules).get? d.id = some p.2 := by
  obtain ⟨j, p', hj, hp', hname, rfl⟩ := firstDefinition_some hd
  cases hp.symm.trans hp'
  have hdef : m.definitions.get? name = some (moduleDefinition k j p.1 p.2) := (h.definitions k m hm name).trans hd
  have hmem : (⟨k, j⟩ : QualifiedDefId) ∈ ((modules.values.flatMap fun module => module.definitions.values).filterMap
      fun definition => (itemOf sources definition).map (definition.id, ·)).map (·.1) := by
    refine List.mem_map.mpr ⟨(⟨k, j⟩, p.2), List.mem_filterMap.mpr ⟨moduleDefinition k j p.1 p.2, ?_, ?_⟩, rfl⟩
    · exact List.mem_flatMap.mpr ⟨m, List.mem_map.mpr ⟨(k, m), OrdMap.get?_eq_some_iff.mp hm, rfl⟩,
        List.mem_map.mpr ⟨_, OrdMap.get?_eq_some_iff.mp hdef, rfl⟩⟩
    · rw [itemOf_first hfiles hp]
      rfl
  obtain ⟨item, hitem⟩ := OrdMap.exists_get?_ofList hmem
  -- whatever stands there was entered for a definition of that identity, so for this one
  obtain ⟨d', hd', heq⟩ := List.mem_filterMap.mp (OrdMap.mem_of_get?_ofList hitem)
  obtain ⟨item', hitem', heq⟩ := Option.map_eq_some_iff.mp heq
  obtain ⟨m', hm', hd'⟩ := List.mem_flatMap.mp hd'
  obtain ⟨⟨k', m''⟩, hentry, rfl⟩ := List.mem_map.mp hm'
  obtain ⟨⟨name', d''⟩, hdentry, rfl⟩ := List.mem_map.mp hd'
  have hfirst := (h.definitions k' m'' (OrdMap.get?_eq_some_iff.mpr hentry) name').symm.trans
    (OrdMap.get?_eq_some_iff.mpr hdentry)
  obtain ⟨j', q, hj', hq, -, rfl⟩ := firstDefinition_some hfirst
  rw [itemOf_first hfiles hq] at hitem'
  cases hitem'
  have hid : (⟨k', j'⟩ : QualifiedDefId) = ⟨k, j⟩ := congrArg Prod.fst heq
  cases hid
  cases hj.symm.trans hj'
  rw [show moduleItems sources modules = OrdMap.ofList _ from rfl]
  exact hitem.trans (congrArg (fun e : QualifiedDefId × Item => some e.2) heq.symm)

/-! ## Imports -/

/-- What a `use` line binds: a local name and a public definition. -/
def asked (ids : OrdMap String Nat) (sources : List ModuleSource) (p : PendingImport) : Option (String × ModuleDefinition) :=
  p.node.path.getLast?.bind fun symbol => (ids.get? (joinPath p.node.path.dropLast)).bind fun target =>
    ((firstDefinition target (itemsIn ids target sources) symbol).filter (·.isPublic)).map (p.node.aliasName.getD symbol, ·)

/-- The imports of a module with one more, unless its name is taken. -/
def enter (m : ResolvedModule) (span : Span) : Option (String × ModuleDefinition) → OrdMap String ResolvedImport
  | none        => m.imports
  | some (n, d) =>
    if m.definitions.contains n ∨ m.imports.contains n then m.imports else m.imports.insert n ⟨n, d.id, span⟩

variable {r : Linked} {p : PendingImport} {m : ResolvedModule}

theorem Holding.lookup (h : Holding ids sources modules) {name : String} {target : Nat} (hid : ids.get? name = some target)
    (symbol : String) : ((modules.get? target).bind fun m => m.definitions.get? symbol) =
      firstDefinition target (itemsIn ids target sources) symbol := by
  have hsome := congrArg Option.isSome (h.names target)
  rw [Option.isSome_map, Option.isSome_map] at hsome
  obtain ⟨m, hm⟩ := Option.isSome_iff_exists.mp (hsome.trans (emptyModules_contains hid))
  rw [hm, Option.bind_some]
  exact h.definitions target m hm symbol

/-- A module is exchanged for one of the same name and definitions. -/
theorem Holding.insert (h : Holding ids sources modules) {k : Nat} (hm : modules.get? k = some m) {m' : ResolvedModule}
    (hname : m'.name = m.name) (hdefs : m'.definitions = m.definitions) : Holding ids sources (modules.insert k m') := by
  refine ⟨fun k' => ?_, fun k' m'' hm'' name => ?_⟩
  · rw [OrdMap.get?_insert]
    split_ifs with heq
    · rw [← heq, ← h.names k, hm, Option.map_some, hname]
      rfl
    · exact h.names k'
  · rw [OrdMap.get?_insert] at hm''
    split_ifs at hm'' with heq
    · cases hm''
      rw [← heq, hdefs]
      exact h.definitions k m hm name
    · exact h.definitions k' m'' hm'' name

theorem bindImport_holding (h : Holding ids sources r.modules) (p : PendingImport) (target : Nat) (d : ModuleDefinition)
    (localName : String) : Holding ids sources (bindImport r p target d localName).modules := by
  unfold bindImport
  cases hm : r.modules.get? p.owner with
  | none => exact h
  | some owner =>
    simp only
    split
    · exact h.insert hm rfl rfl
    · exact h.insert hm rfl rfl

theorem resolveImport_holding (h : Holding ids sources r.modules) (p : PendingImport) :
    Holding ids sources (resolveImport ids r p).modules := by
  unfold resolveImport
  split
  · exact h
  simp only
  split
  · exact h
  split
  · exact h
  split_ifs
  · exact bindImport_holding h ..
  · exact h

theorem bindImport_owner (hm : r.modules.get? p.owner = some m) (target : Nat) (d : ModuleDefinition) (localName : String) :
    ∃ m', (bindImport r p target d localName).modules.get? p.owner = some m' ∧
      m'.imports = enter m p.node.span (some (localName, d)) := by
  unfold bindImport enter
  rw [hm]
  simp only
  split
  · exact ⟨_, (OrdMap.get?_insert _ _ _ _).trans (if_pos rfl), rfl⟩
  · exact ⟨_, (OrdMap.get?_insert _ _ _ _).trans (if_pos rfl), rfl⟩

/-- What a `use` line makes of the imports of its module. -/
theorem resolveImport_owner (h : Holding ids sources r.modules) (hm : r.modules.get? p.owner = some m) :
    ∃ m', (resolveImport ids r p).modules.get? p.owner = some m' ∧ m'.imports = enter m p.node.span (asked ids sources p) := by
  unfold resolveImport asked
  cases p.node.path.getLast? with
  | none => exact ⟨m, hm, rfl⟩
  | some symbol =>
    simp only [Option.bind_some]
    cases hid : ids.get? (joinPath p.node.path.dropLast) with
    | none => exact ⟨m, hm, rfl⟩
    | some target =>
      simp only [Option.bind_some, h.lookup hid]
      cases firstDefinition target (itemsIn ids target sources) symbol with
      | none => exact ⟨m, hm, rfl⟩
      | some d =>
        by_cases hpublic : d.isPublic = true
        · simp only [hpublic, if_true, Option.filter_some, Option.map_some]
          exact bindImport_owner hm target d _
        · simp only [hpublic, Bool.false_eq_true, if_false, Option.filter_some]
          exact ⟨m, hm, rfl⟩

theorem resolveImport_other (ids : OrdMap String Nat) (r : Linked) {k : Nat} (hk : p.owner ≠ k) :
    (resolveImport ids r p).modules.get? k = r.modules.get? k := by
  have hbind : ∀ target d localName, (bindImport r p target d localName).modules.get? k = r.modules.get? k := by
    intro target d localName
    unfold bindImport
    cases r.modules.get? p.owner with
    | none => rfl
    | some owner =>
      simp only
      split
      · rw [Linked.report, OrdMap.get?_insert, if_neg hk]
      · rw [OrdMap.get?_insert, if_neg hk]
  unfold resolveImport
  split
  · rfl
  simp only
  split
  · rfl
  split
  · rfl
  split_ifs
  · exact hbind ..
  · rfl

theorem Holding.placed (h : Holding ids sources modules) {k : Nat} {source : ModuleSource} (hk : placed ids k source = true) :
    ∃ m, modules.get? k = some m := by
  obtain ⟨name, -, hid⟩ := Option.bind_eq_some_iff.mp (of_decide_eq_true hk)
  have hsome := congrArg Option.isSome (h.names k)
  rw [Option.isSome_map, Option.isSome_map] at hsome
  exact Option.isSome_iff_exists.mp (hsome.trans (emptyModules_contains hid))

theorem Holding.name (h : Holding ids sources modules) {k : Nat} (hm : modules.get? k = some m) : ids.get? m.name = some k := by
  have hname := h.names k
  rw [hm] at hname
  obtain ⟨m₀, hm₀, heq⟩ := Option.map_eq_some_iff.mp hname.symm
  rw [← show m₀.name = m.name from heq]
  exact (emptyModules_get hm₀).name

/-- The module of a file is the one of its number, if that has its name. -/
theorem Holding.moduleOf_eq (h : Holding ids sources modules) {source : ModuleSource} {name : String}
    (hname : moduleName source.ast = some name) :
    moduleOf modules source = ((ids.get? name).bind modules.get?).filter (·.name = name) := by
  have hfound : ∀ m, moduleOf modules source = some m ↔ ∃ k, ids.get? name = some k ∧ modules.get? k = some m ∧ m.name = name := by
    intro m
    rw [moduleOf, hname, Option.bind_some]
    constructor
    · intro hfind
      have hm : m.name = name := by simpa using List.find?_some hfind
      obtain ⟨⟨k, m'⟩, hentry, rfl⟩ := List.mem_map.mp (List.mem_of_find?_eq_some hfind)
      have hget := OrdMap.get?_eq_some_iff.mpr hentry
      exact ⟨k, hm ▸ h.name hget, hget, hm⟩
    · rintro ⟨k, hk, hget, hm⟩
      have hsome : (modules.values.find? (·.name = name)).isSome = true := by
        rw [List.find?_isSome]
        exact ⟨m, List.mem_map.mpr ⟨(k, m), OrdMap.get?_eq_some_iff.mp hget, rfl⟩, decide_eq_true hm⟩
      obtain ⟨m', hm'⟩ := Option.isSome_iff_exists.mp hsome
      have hname' : m'.name = name := by simpa using List.find?_some hm'
      obtain ⟨⟨k', m''⟩, hentry, rfl⟩ := List.mem_map.mp (List.mem_of_find?_eq_some hm')
      have hget' := OrdMap.get?_eq_some_iff.mpr hentry
      cases hk.symm.trans (hname' ▸ h.name hget')
      cases hget.symm.trans hget'
      exact hm'
  refine Option.ext fun m => (hfound m).trans ?_
  simp only [Option.filter_eq_some_iff, Option.bind_eq_some_iff, decide_eq_true_eq]
  constructor
  · rintro ⟨k, hk, hget, hm⟩
    exact ⟨⟨k, hk, hget⟩, hm⟩
  · rintro ⟨⟨k, hk, hget⟩, hm⟩
    exact ⟨k, hk, hget, hm⟩

end

/-! ## One module exchanged -/

section
variable {α β γ δ : Type} {R : α → β → Prop}

theorem rel_isSome {a : Option α} {b : Option β} (h : Option.Rel R a b) : a.isSome = b.isSome := by
  cases h <;> rfl

theorem rel_map {S : γ → δ → Prop} {f : α → γ} {g : β → δ} {a : Option α} {b : Option β} (h : Option.Rel R a b)
    (hf : ∀ a b, R a b → S (f a) (g b)) : Option.Rel S (a.map f) (b.map g) := by
  cases h with
  | none => exact .none
  | some h => exact .some (hf _ _ h)

end

/-- The item that others get from a module under a name: the first of the name, if it is public. -/
def exportOf (ids : OrdMap String Nat) (k : Nat) (sources : List ModuleSource) (name : String) : Option Item :=
  ((firstOf (itemsIn ids k sources) name).map (·.2)).filter (·.isPublic)

/-- Two sets of files that differ in the files of one module, which has corresponding exports in both. -/
structure Exchanged (Q : Span → Span → Prop) (ids : OrdMap String Nat) (k₀ : Nat) (sources sources' : List ModuleSource) :
    Prop where
  nodup : (sources.map (·.file)).Nodup
  nodup' : (sources'.map (·.file)).Nodup
  others : sources.filter (fun source => !placed ids k₀ source) = sources'.filter fun source => !placed ids k₀ source
  exports : ∀ name, Option.Rel (LikeItem Q) (exportOf ids k₀ sources name) (exportOf ids k₀ sources' name)

/-- The identities of one public definition in both. -/
def Twins (ids : OrdMap String Nat) (sources sources' : List ModuleSource) (d d' : QualifiedDefId) : Prop :=
  ∃ k name e e', firstDefinition k (itemsIn ids k sources) name = some e ∧
    firstDefinition k (itemsIn ids k sources') name = some e' ∧ e.isPublic = true ∧ e'.isPublic = true ∧ d = e.id ∧ d' = e'.id

section
variable {Q : Span → Span → Prop} {ids : OrdMap String Nat} {k₀ : Nat} {sources sources' : List ModuleSource}

theorem Exchanged.itemsIn_eq (h : Exchanged Q ids k₀ sources sources') {k : Nat} (hk : k ≠ k₀) :
    itemsIn ids k sources = itemsIn ids k sources' := by
  have hfilter : ∀ l : List ModuleSource, l.filter (placed ids k) =
      (l.filter fun source => !placed ids k₀ source).filter (placed ids k) := by
    intro l
    rw [List.filter_filter]
    refine List.filter_congr fun source _ => ?_
    cases hplaced : placed ids k source with
    | false => rfl
    | true =>
      have hid := of_decide_eq_true hplaced
      have hout : placed ids k₀ source = false := decide_eq_false fun hother => hk (Option.some.inj (hid.symm.trans hother))
      rw [hout]
      rfl
  rw [itemsIn, itemsIn, hfilter sources, hfilter sources', h.others]

theorem Exchanged.exports_like (h : Exchanged Q ids k₀ sources sources') (hQ : ∀ s, Q s s) (k : Nat) (name : String) :
    Option.Rel (LikeItem Q) (exportOf ids k sources name) (exportOf ids k sources' name) := by
  by_cases hk : k = k₀
  · rw [hk]
    exact h.exports name
  · rw [exportOf, exportOf, h.itemsIn_eq hk]
    cases ((firstOf (itemsIn ids k sources') name).map (·.2)).filter (·.isPublic) with
    | none => exact .none
    | some item => exact .some (likeItem_refl hQ item)

/-- A public definition and the item it exports. -/
theorem exportOf_iff (k : Nat) (name : String) : (exportOf ids k sources name).isSome =
    ((firstDefinition k (itemsIn ids k sources) name).filter (·.isPublic)).isSome := by
  have hsome := firstDefinition_isSome k (itemsIn ids k sources) name
  unfold exportOf
  cases hd : firstDefinition k (itemsIn ids k sources) name with
  | none =>
    rw [hd] at hsome
    rw [Option.isSome_eq_false_iff.mp hsome.symm |> Option.isNone_iff_eq_none.mp]
    rfl
  | some d =>
    obtain ⟨j, p, -, hp, -, rfl⟩ := firstDefinition_some hd
    rw [hp]
    by_cases hpublic : p.2.isPublic = true
    · simp [moduleDefinition, hpublic]
    · simp [moduleDefinition, hpublic]

theorem Exchanged.twins (h : Exchanged Q ids k₀ sources sources') (hQ : ∀ s, Q s s) (k : Nat) (name : String) :
    Option.Rel (fun e e' => Twins ids sources sources' e.id e'.id)
      ((firstDefinition k (itemsIn ids k sources) name).filter (·.isPublic))
      ((firstDefinition k (itemsIn ids k sources') name).filter (·.isPublic)) := by
  have hsame := rel_isSome (h.exports_like hQ k name)
  rw [exportOf_iff, exportOf_iff] at hsame
  cases hd : (firstDefinition k (itemsIn ids k sources) name).filter (·.isPublic) with
  | none =>
    rw [hd] at hsame
    rw [Option.isSome_eq_false_iff.mp hsame.symm |> Option.isNone_iff_eq_none.mp]
    exact .none
  | some e =>
    rw [hd] at hsame
    obtain ⟨e', hd'⟩ := Option.isSome_iff_exists.mp hsame.symm
    obtain ⟨he, hpublic⟩ := Option.filter_eq_some_iff.mp hd
    obtain ⟨he', hpublic'⟩ := Option.filter_eq_some_iff.mp hd'
    rw [hd']
    exact .some ⟨k, name, e, e', he, he', hpublic, hpublic', rfl, rfl⟩

/-- A `use` line asks for the same in both. -/
theorem Exchanged.asked (h : Exchanged Q ids k₀ sources sources') (hQ : ∀ s, Q s s) (p : PendingImport) :
    Option.Rel (fun a a' => a.1 = a'.1 ∧ Twins ids sources sources' a.2.id a'.2.id) (asked ids sources p)
      (asked ids sources' p) := by
  unfold Modules.asked
  cases p.node.path.getLast? with
  | none => exact .none
  | some symbol =>
    cases ids.get? (joinPath p.node.path.dropLast) with
    | none => exact .none
    | some target =>
      simp only [Option.bind_some]
      exact rel_map (h.twins hQ target symbol) fun _ _ htwins => ⟨rfl, htwins⟩

/-- Twins are definitions of items that correspond. -/
theorem Exchanged.items (h : Exchanged Q ids k₀ sources sources') (hQ : ∀ s, Q s s) {modules modules' : ModuleMap}
    (hheld : Holding ids sources modules) (hheld' : Holding ids sources' modules') {d d' : QualifiedDefId}
    (ht : Twins ids sources sources' d d') :
    Option.Rel (LikeItem Q) ((moduleItems sources modules).get? d) ((moduleItems sources' modules').get? d') := by
  obtain ⟨k, name, e, e', he, he', hpublic, hpublic', rfl, rfl⟩ := ht
  obtain ⟨j, p, -, hp, -, rfl⟩ := firstDefinition_some he
  obtain ⟨j', p', -, hp', -, rfl⟩ := firstDefinition_some he'
  obtain ⟨source, -, hk, -⟩ := mem_itemsIn.mp (List.mem_of_find?_eq_some hp)
  obtain ⟨source', -, hk', -⟩ := mem_itemsIn.mp (List.mem_of_find?_eq_some hp')
  obtain ⟨m, hm⟩ := hheld.placed hk
  obtain ⟨m', hm'⟩ := hheld'.placed hk'
  rw [moduleItems_first hheld h.nodup hm he hp, moduleItems_first hheld' h.nodup' hm' he' hp']
  have hexports := h.exports_like hQ k name
  rw [exportOf, exportOf, hp, hp'] at hexports
  simp only [Option.map_some, Option.filter_some] at hexports
  rwa [if_pos (show p.2.isPublic = true from hpublic), if_pos (show p'.2.isPublic = true from hpublic')] at hexports

/-! ### Imports of the other modules -/

/-- The same import, of twins. -/
def TwinImports (ids : OrdMap String Nat) (sources sources' : List ModuleSource) (i i' : ResolvedImport) : Prop :=
  i.localName = i'.localName ∧ Twins ids sources sources' i.definition i'.definition

/-- Two runs over the `use` lines: the modules other than the exchanged one have the same imports. -/
structure Paired (ids : OrdMap String Nat) (k₀ : Nat) (sources sources' : List ModuleSource) (r r' : Linked) : Prop where
  held : Holding ids sources r.modules
  held' : Holding ids sources' r'.modules
  imports : ∀ k, k ≠ k₀ → ∀ m m', r.modules.get? k = some m → r'.modules.get? k = some m' → ∀ localName,
    Option.Rel (TwinImports ids sources sources') (m.imports.get? localName) (m'.imports.get? localName)

variable {r r' : Linked} {p : PendingImport}

theorem Exchanged.definitions_eq (h : Exchanged Q ids k₀ sources sources') {modules modules' : ModuleMap}
    (hheld : Holding ids sources modules) (hheld' : Holding ids sources' modules') {k : Nat} (hk : k ≠ k₀) {m m' : ResolvedModule}
    (hm : modules.get? k = some m) (hm' : modules'.get? k = some m') : m.definitions = m'.definitions := by
  refine OrdMap.ext_get? fun name => ?_
  rw [hheld.definitions k m hm, hheld'.definitions k m' hm', h.itemsIn_eq hk]

/-- The `use` lines of the exchanged module are no one else's. -/
theorem Paired.left (h : Paired ids k₀ sources sources' r r') (hp : p.owner = k₀) :
    Paired ids k₀ sources sources' (resolveImport ids r p) r' := by
  refine ⟨resolveImport_holding h.held p, h.held', fun k hk m m' hm hm' => ?_⟩
  rw [resolveImport_other ids r (hp.trans_ne hk.symm)] at hm
  exact h.imports k hk m m' hm hm'

theorem Paired.right (h : Paired ids k₀ sources sources' r r') (hp : p.owner = k₀) :
    Paired ids k₀ sources sources' r (resolveImport ids r' p) := by
  refine ⟨h.held, resolveImport_holding h.held' p, fun k hk m m' hm hm' => ?_⟩
  rw [resolveImport_other ids r' (hp.trans_ne hk.symm)] at hm'
  exact h.imports k hk m m' hm hm'

theorem enter_twins {m m' : ResolvedModule} (hdefs : m.definitions = m'.definitions)
    (himports : ∀ n, Option.Rel (TwinImports ids sources sources') (m.imports.get? n) (m'.imports.get? n)) (span : Span)
    {a a' : Option (String × ModuleDefinition)}
    (ha : Option.Rel (fun a a' => a.1 = a'.1 ∧ Twins ids sources sources' a.2.id a'.2.id) a a') (n : String) :
    Option.Rel (TwinImports ids sources sources') ((enter m span a).get? n) ((enter m' span a').get? n) := by
  cases ha with
  | none => exact himports n
  | @some e e' he =>
    obtain ⟨localName, d⟩ := e
    obtain ⟨_, d'⟩ := e'
    obtain ⟨rfl, htwins⟩ := he
    have htaken : m.imports.contains localName = m'.imports.contains localName := rel_isSome (himports localName)
    simp only [enter, hdefs, htaken]
    split
    · exact himports n
    · rw [OrdMap.get?_insert, OrdMap.get?_insert]
      split
      · exact .some ⟨rfl, htwins⟩
      · exact himports n

/-- Any `use` line, of both. -/
theorem Paired.step (h : Paired ids k₀ sources sources' r r') (hex : Exchanged Q ids k₀ sources sources') (hQ : ∀ s, Q s s) :
    Paired ids k₀ sources sources' (resolveImport ids r p) (resolveImport ids r' p) := by
  refine ⟨resolveImport_holding h.held p, resolveImport_holding h.held' p, fun k hk m m' hm hm' n => ?_⟩
  by_cases howner : p.owner = k
  · subst howner
    have hsome : ∀ {sources : List ModuleSource} {r : Linked} {m : ResolvedModule}, Holding ids sources r.modules →
        (resolveImport ids r p).modules.get? p.owner = some m → ∃ m₀, r.modules.get? p.owner = some m₀ := by
      intro sources r m hheld hm
      have hnames := ((resolveImport_holding hheld p).names p.owner).trans (hheld.names p.owner).symm
      rw [hm] at hnames
      obtain ⟨m₀, hm₀, -⟩ := Option.map_eq_some_iff.mp hnames.symm
      exact ⟨m₀, hm₀⟩
    obtain ⟨m₀, hm₀⟩ := hsome h.held hm
    obtain ⟨m₀', hm₀'⟩ := hsome h.held' hm'
    obtain ⟨_, hget, himports⟩ := resolveImport_owner h.held hm₀
    obtain ⟨_, hget', himports'⟩ := resolveImport_owner h.held' hm₀'
    cases hget.symm.trans hm
    cases hget'.symm.trans hm'
    rw [himports, himports']
    exact enter_twins (hex.definitions_eq h.held h.held' hk hm₀ hm₀') (h.imports _ hk _ _ hm₀ hm₀') _ (hex.asked hQ p) n
  · rw [resolveImport_other ids _ howner] at hm hm'
    exact h.imports k hk m m' hm hm' n

theorem pending_others (l : List ModuleSource) : (l.flatMap (pendingOf ids)).filter (fun p => decide (p.owner ≠ k₀)) =
    (l.filter fun source => !placed ids k₀ source).flatMap (pendingOf ids) := by
  induction l with
  | nil => rfl
  | cons source l ih =>
    rw [List.flatMap_cons, List.filter_append, ih, List.filter_cons]
    cases hplaced : placed ids k₀ source with
    | true =>
      have hnone : (pendingOf ids source).filter (fun p => decide (p.owner ≠ k₀)) = [] := by
        refine List.filter_eq_nil_iff.mpr fun p hp => ?_
        have hid := of_decide_eq_true (mem_pendingOf.mp hp).1
        have howner : p.owner = k₀ := Option.some.inj (hid.symm.trans (of_decide_eq_true hplaced))
        simp [howner]
      rw [hnone]
      rfl
    | false =>
      have hall : (pendingOf ids source).filter (fun p => decide (p.owner ≠ k₀)) = pendingOf ids source := by
        refine List.filter_eq_self.mpr fun p hp => decide_eq_true ?_
        rintro rfl
        rw [(mem_pendingOf.mp hp).1] at hplaced
        cases hplaced
      rw [hall]
      rfl

/-- **The other modules have the same imports.** -/
theorem resolveImports_paired (h : Exchanged Q ids k₀ sources sources') (hQ : ∀ s, Q s s) :
    Paired ids k₀ sources sources' (resolveImports ids (collectSources sources ids))
      (resolveImports ids (collectSources sources' ids)) := by
  have hgathered := @collectSources_gathered ids sources
  have hgathered' := @collectSources_gathered ids sources'
  have hstart : Paired ids k₀ sources sources'
      ⟨(collectSources sources ids).modules, OrdMap.empty, (collectSources sources ids).diagnostics⟩
      ⟨(collectSources sources' ids).modules, OrdMap.empty, (collectSources sources' ids).diagnostics⟩ := by
    refine ⟨hgathered.holding, hgathered'.holding, fun k hk m m' hm hm' n => ?_⟩
    rw [hgathered.imports k m hm, hgathered'.imports k m' hm']
    exact .none
  have hpending : (collectSources sources ids).pending.filter (fun p => decide (p.owner ≠ k₀)) =
      (collectSources sources' ids).pending.filter fun p => decide (p.owner ≠ k₀) := by
    rw [hgathered.pending, hgathered'.pending, pending_others, pending_others, h.others]
  have hloops := @foldl_filter_rel _ _ _ (resolveImport ids) (resolveImport ids) (fun p => decide (p.owner ≠ k₀))
    (Paired ids k₀ sources sources') (fun _ _ _ hp h => h.left (by simpa using hp))
    (fun _ _ _ hp h => h.right (by simpa using hp)) (fun _ _ _ _ h' => h'.step h hQ)
  exact hloops hpending hstart

/-! ### What a file of another module sees -/

theorem importsFor_like (h : Exchanged Q ids k₀ sources sources') (hQ : ∀ s, Q s s)
    (hpaired : Paired ids k₀ sources sources' r r') {k : Nat} (hk : k ≠ k₀) {m m' : ResolvedModule}
    (hm : r.modules.get? k = some m) (hm' : r'.modules.get? k = some m') (source : ModuleSource) :
    LikeImports Q (importsFor (moduleItems sources r.modules) m source)
      (importsFor (moduleItems sources' r'.modules) m' source) := by
  refine List.rel_append ?_ ?_
  · refine List.rel_filterMap (fun i i' hi => ?_) (OrdMap.forall₂_values (hpaired.imports k hk m m' hm hm'))
    exact rel_map (h.items hQ hpaired.held hpaired.held' hi.2) fun _ _ hitem => ⟨hi.1, hitem⟩
  · have hdefs := h.definitions_eq hpaired.held hpaired.held' hk hm hm'
    have hsame : List.Forall₂ (fun d d' => d = d' ∧ d ∈ m.definitions.values) m.definitions.values m'.definitions.values := by
      rw [← hdefs]
      exact List.forall₂_same.mpr fun d hd => ⟨rfl, hd⟩
    refine List.rel_filterMap (fun d d' hd => ?_) hsame
    obtain ⟨rfl, hd⟩ := hd
    split
    · exact .none
    · obtain ⟨⟨name, d'⟩, hentry, rfl⟩ := List.mem_map.mp hd
      have hfirst := (hpaired.held.definitions k m hm name).symm.trans (OrdMap.get?_eq_some_iff.mpr hentry)
      obtain ⟨j, p, -, hp, -, rfl⟩ := firstDefinition_some hfirst
      rw [moduleItems_first hpaired.held h.nodup hm hfirst hp, moduleItems_first hpaired.held' h.nodup' hm'
        (by rw [← h.itemsIn_eq hk]; exact hfirst) (by rw [← h.itemsIn_eq hk]; exact hp)]
      exact .some ⟨rfl, likeItem_refl hQ p.2⟩

/-- **The files of other modules are analyzed the same.** -/
theorem Exchanged.analyses (h : Exchanged Q (moduleIds sources) k₀ sources sources') (hQ : ∀ s, Q s s)
    (hids : moduleIds sources' = moduleIds sources) {source : ModuleSource} (hs : source ∈ sources) (hs' : source ∈ sources')
    (hout : placed (moduleIds sources) k₀ source = false) :
    Option.Rel (LikeAnalysis Q) ((analyzeSourceBodies sources (linkModules sources).modules).get? source.file)
      ((analyzeSourceBodies sources' (linkModules sources').modules).get? source.file) := by
  have hpaired : Paired (moduleIds sources) k₀ sources sources' (linkModules sources) (linkModules sources') := by
    unfold linkModules
    rw [hids]
    exact resolveImports_paired h hQ
  rw [analyzeSourceBodies_get h.nodup _ hs, analyzeSourceBodies_get h.nodup' _ hs']
  cases hname : moduleName source.ast with
  | none =>
    rw [moduleOf, moduleOf, hname]
    exact .none
  | some name =>
    rw [hpaired.held.moduleOf_eq hname, hpaired.held'.moduleOf_eq hname]
    cases hid : (moduleIds sources).get? name with
    | none => exact .none
    | some k =>
      have hk : k ≠ k₀ := by
        rintro rfl
        simp [placed, hname, hid] at hout
      have hnames := (hpaired.held.names k).trans (hpaired.held'.names k).symm
      simp only [Option.bind_some]
      cases hm : (linkModules sources).modules.get? k with
      | none =>
        rw [hm] at hnames
        rw [Option.map_eq_none_iff.mp hnames.symm]
        exact .none
      | some m =>
        rw [hm] at hnames
        obtain ⟨m', hm', hsame⟩ := Option.map_eq_some_iff.mp hnames.symm
        have hsame : m'.name = m.name := hsame
        rw [hm']
        simp only [Option.filter_some, hsame]
        split
        · exact .some (analyzeWithImports_like hQ _ _ (importsFor_like h hQ hpaired hk hm hm' source))
        · exact .none

end

end Modules
end Syllog
