import Syllog.PackageLink
/-!
# PackageIds — the identities of a linked package

An item's identity is its place among the items of its module; the members of all files follow, then what the bodies bind, in
the order of the files.  So identities of one kind and of different kinds never meet, and a use that is written with the local
name of an import carries the identity of what it names.
-/
namespace Syllog
namespace Package

open Hir Ast Semantic Modules AstLower

/-! ## What is declared -/

/-- The parser: the names of what it accepts are identifiers. -/
structure Parser where
  checkSyl : String → String → CheckResult
  named : ∀ file text ast, (checkSyl file text).ast = some ast → Named ast

/-- The parsed files of a package, in the order of their names. -/
def parsedSources (parser : Parser) (sources : List PackageSource) : List ModuleSource :=
  (sortedSources sources).filterMap fun source =>
    (parser.checkSyl source.file source.source).ast.map fun ast => ⟨source.file, ast⟩

/-- The items of a module, file by file. -/
def itemsOf (sources : List ModuleSource) (name : String) : List Item :=
  (sources.filter fun source => moduleName source.ast = some name).flatMap (·.ast.items)

/-- An item of a module and the definition in its place; modules are numbered in the order of their names. -/
def Declares (sources : List ModuleSource) (p : HirProgram) (name : String) (item : Item) (d : HirDefinition) : Prop :=
  ∃ h ∈ p.modules, (moduleIds sources).get? name = some h.id ∧
    ∃ i : Nat, (itemsOf sources name)[i]? = some item ∧ h.definitions[i]? = some d

/-- The names of an item's fields or variants. -/
def memberNames : Item → List String
  | .struct node => node.fields.map (·.name)
  | .enum node   => node.variants.map (·.name)
  | .state node  => node.fields.map (·.name)
  | _            => []

def variantNames : Item → List String
  | .enum node => node.variants.map (·.name)
  | _          => []

/-- What a use carries that is written with the local name of an import of `target`: the identity of its definition, or of its
variant. -/
structure CarriesImport (localName : String) (target : Item) (d : HirDefinition) (use : Use) (referent : Referent) : Prop where
  value : use = .value localName false → referent = .reference d.id
  path : ∀ (i : Nat) (variant : String) (id : DefId), (variantNames target)[i]? = some variant → d.memberIds[i]? = some id →
    use = .path [localName, variant] → referent = .reference id
  pattern : ∀ (i : Nat) (variant : String) (id : DefId), (variantNames target)[i]? = some variant → d.memberIds[i]? = some id →
    use = .pattern [localName, variant] → referent = .variant id

/-- The identities of a linked package. -/
structure Identities (sources : List ModuleSource) (p : HirProgram) : Prop where
  lowered : ∀ name, ∀ item ∈ itemsOf sources name, ∃ d, Declares sources p name item d
  declared : ∀ d ∈ p.definitions, ∃ name item, Declares sources p name item d ∧ d.name = item.name ∧
    d.memberIds.length = (memberNames item).length ∧ d.bindings.length = item.binders.length
  items : ∀ name item d name' item' d', Declares sources p name item d → Declares sources p name' item' d' →
    d.id = d'.id → name = name' ∧ item.name = item'.name
  members : ∀ name item d name' item' d', Declares sources p name item d → Declares sources p name' item' d' →
    ∀ (i j : Nat) (id : DefId), d.memberIds[i]? = some id → d'.memberIds[j]? = some id →
      name = name' ∧ item.name = item'.name ∧ (memberNames item)[i]? = (memberNames item')[j]?
  bindings : (p.definitions.flatMap HirDefinition.bindings).Nodup
  apart : ∀ id ∈ p.definitions.flatMap HirDefinition.bindings,
    id ∉ p.definitions.map (·.id) ∧ id ∉ p.definitions.flatMap HirDefinition.memberIds
  membersApart : ∀ id ∈ p.definitions.flatMap HirDefinition.memberIds, id ∉ p.definitions.map (·.id)
  imports : ∀ source ∈ sources, ∀ name, moduleName source.ast = some name → ∀ node ∈ source.ast.imports, ∀ symbol,
    node.path.getLast? = some symbol → ∃ target d', Declares sources p (joinPath node.path.dropLast) target d' ∧
      target.name = symbol ∧ ∀ item d, Declares sources p name item d →
        List.Forall₂ (CarriesImport (node.aliasName.getD symbol) target d') item.uses d.referents

/-- What a package was linked from. -/
structure LinkedFrom (asts : OrdMap String SourceFile) (analysis : ModuleAnalysis) (modules : ModuleMap) (s : LinkState)
    (p : HirProgram) : Prop where
  graph : Graph (moduleIds (moduleSources asts)) (moduleSources asts) modules
  modules_eq : analysis.modules = modules.values
  named : ∀ source ∈ moduleSources asts, Named source.ast
  parts : LoweredParts (moduleIds (moduleSources asts)) asts analysis modules (moduleSources asts) s
  program : p.modules = s.modules.values

theorem Compiled.linkedFrom {parser : Parser} {sources : List PackageSource} {asts : OrdMap String SourceFile}
    {diagnostics : List CompilerDiagnostic} {p : HirProgram}
    (h : Compiled parser.checkSyl (sortedSources sources) asts diagnostics p) :
    parsedSources parser sources = moduleSources asts ∧
      LinkedFrom asts (analyzeModules (moduleSources asts)) (linkModules (moduleSources asts)).modules
        (linkSources (sortedSources sources) asts (analyzeModules (moduleSources asts)) diagnostics) p := by
  obtain ⟨hmodules, hgraph⟩ := h.graph
  have hsources : parsedSources parser sources = moduleSources asts := by
    rw [h.parses.sources_eq]
    refine List.filterMap_congr fun source hs => ?_
    obtain ⟨ast, hast, hparsed⟩ := h.parses.parsed source hs
    rw [parsed, hast, hparsed]
  have hnamed : ∀ source ∈ moduleSources asts, Named source.ast := by
    intro source hs
    rw [← hsources] at hs
    obtain ⟨source', -, heq⟩ := List.mem_filterMap.mp hs
    obtain ⟨ast, hast, rfl⟩ := Option.map_eq_some_iff.mp heq
    exact parser.named _ _ _ hast
  exact ⟨hsources, hgraph, hmodules, hnamed, linkSources_parts hgraph hmodules hnamed h.parses h.linked, by rw [h.program]⟩

theorem compilePackage_linked {parser : Parser} {sources : List PackageSource} {p : HirProgram}
    {reports : List CompilerDiagnostic} (h : compilePackage parser.checkSyl sources = ⟨some p, reports⟩) :
    ∃ asts s, parsedSources parser sources = moduleSources asts ∧
      LinkedFrom asts (analyzeModules (moduleSources asts)) (linkModules (moduleSources asts)).modules s p := by
  obtain ⟨asts, diagnostics, hcompiled⟩ := compilePackage_compiled h
  exact ⟨asts, _, hcompiled.linkedFrom⟩

section
variable {asts : OrdMap String SourceFile} {analysis : ModuleAnalysis} {modules : ModuleMap} {s : LinkState} {p : HirProgram}
  {k k' i : Nat} {m m' : ResolvedModule} {item item' : Item} {d d' : HirDefinition}

/-- Where an item stands: its module, its place there and its definition. -/
structure Stands (asts : OrdMap String SourceFile) (analysis : ModuleAnalysis) (modules : ModuleMap) (s : LinkState) (k : Nat)
    (m : ResolvedModule) (i : Nat) (item : Item) (d : HirDefinition) : Prop where
  module : modules.get? k = some m
  place : ∃ file, (itemsIn (moduleIds (moduleSources asts)) k (moduleSources asts))[i]? = some (file, item)
  part : ∃ base next definitions,
    LoweredPart (moduleIds (moduleSources asts)) asts analysis (moduleSources asts) s k m base next definitions ∧
      definitions[i]? = some d ∧ Defines (lowererOf k (namesOf asts analysis m)) base item d

/-! ## Places -/

namespace LinkedFrom

/-- The names a module sees. -/
theorem sees (w : LinkedFrom asts analysis modules s p) (hm : modules.get? k = some m) :
    Sees (moduleIds (moduleSources asts)) (moduleSources asts) modules (planIdentities analysis asts) k m
      (namesOf asts analysis m) :=
  (@plannedNames_sees _ asts modules analysis "" w.graph w.modules_eq w.named k m hm []).2

/-- What the plan holds of a module. -/
theorem plans (w : LinkedFrom asts analysis modules s p) (hm : modules.get? k = some m) :
    Plans asts (planIdentities analysis asts) m := plans_graph w.graph w.modules_eq hm

theorem itemsOf_eq (w : LinkedFrom asts analysis modules s p) (hm : modules.get? k = some m) :
    itemsOf (moduleSources asts) m.name =
      (itemsIn (moduleIds (moduleSources asts)) k (moduleSources asts)).map (·.2) := by
  have hfilter : (moduleSources asts).filter (fun source => moduleName source.ast = some m.name) =
      (moduleSources asts).filter (placed (moduleIds (moduleSources asts)) k) := by
    refine List.filter_congr fun source hs => ?_
    rw [Bool.eq_iff_iff, decide_eq_true_eq]
    constructor
    · intro hname
      exact decide_eq_true (by rw [hname]; exact w.graph.name k m hm)
    · exact fun hk => w.parts.named source hs k m hk hm
  unfold itemsOf itemsIn
  rw [hfilter, List.map_flatMap]
  simp

/-- What is lowered of a module of the program. -/
theorem part_of_module (w : LinkedFrom asts analysis modules s p) {h : HirModule} (hh : s.modules.get? k = some h) :
    ∃ m base next, modules.get? k = some m ∧
      LoweredPart (moduleIds (moduleSources asts)) asts analysis (moduleSources asts) s k m base next h.definitions := by
  obtain ⟨-, m, hm⟩ := w.parts.located k h hh
  obtain ⟨base, next, definitions, hpart⟩ := w.parts.parts k m hm
  have hdefinitions : h.definitions = definitions := by
    rw [← hpart.modules, hh]
    rfl
  exact ⟨m, base, next, hm, hdefinitions ▸ hpart⟩

theorem stands_of_place (w : LinkedFrom asts analysis modules s p) {h : HirModule} (hh : s.modules.get? k = some h)
    {q : String × Item} (hi : (itemsIn (moduleIds (moduleSources asts)) k (moduleSources asts))[i]? = some q) :
    ∃ m d, h.definitions[i]? = some d ∧ Stands asts analysis modules s k m i q.2 d := by
  obtain ⟨m, base, next, hm, hpart⟩ := w.part_of_module hh
  have hlength : i < h.definitions.length := by
    rw [← hpart.defines.length_eq, List.length_map]
    exact (List.getElem?_eq_some_iff.mp hi).1
  have hd := List.getElem?_eq_getElem hlength
  refine ⟨m, h.definitions[i], hd, hm, ⟨q.1, hi⟩, base, next, h.definitions, hpart, hd, ?_⟩
  have hq : ((itemsIn (moduleIds (moduleSources asts)) k (moduleSources asts)).map (·.2))[i]? = some q.2 := by
    rw [List.getElem?_map, hi]
    rfl
  obtain ⟨hlt, hget⟩ := List.getElem?_eq_some_iff.mp hq
  have hdefines := hpart.defines.get hlt hlength
  simp only [List.get_eq_getElem, hget] at hdefines
  exact hdefines

/-- Every item of a module is lowered. -/
theorem stands_of_item (w : LinkedFrom asts analysis modules s p) (hm : modules.get? k = some m) {q : String × Item}
    (hi : (itemsIn (moduleIds (moduleSources asts)) k (moduleSources asts))[i]? = some q) :
    ∃ d, Stands asts analysis modules s k m i q.2 d := by
  obtain ⟨source, hs, hplaced, -, -⟩ := mem_itemsIn.mp (List.mem_of_getElem? hi)
  obtain ⟨h, hh⟩ := w.parts.present source hs k hplaced
  obtain ⟨m', d, -, hstands⟩ := w.stands_of_place hh hi
  cases hm.symm.trans hstands.module
  exact ⟨d, hstands⟩

/-- A definition of the program is that of an item. -/
theorem stands_of_mem (w : LinkedFrom asts analysis modules s p) (hd : d ∈ p.definitions) :
    ∃ k m i item, Stands asts analysis modules s k m i item d := by
  unfold HirProgram.definitions at hd
  rw [w.program] at hd
  obtain ⟨h, hh, hd⟩ := List.mem_flatMap.mp hd
  obtain ⟨⟨k, h'⟩, hentry, rfl⟩ := List.mem_map.mp hh
  have hget := OrdMap.get?_eq_some_iff.mpr hentry
  obtain ⟨m, base, next, hm, hpart⟩ := w.part_of_module hget
  obtain ⟨i, hi⟩ := List.mem_iff_getElem?.mp hd
  have hlength : i < (itemsIn (moduleIds (moduleSources asts)) k (moduleSources asts)).length := by
    rw [← List.length_map, hpart.defines.length_eq]
    exact (List.getElem?_eq_some_iff.mp hi).1
  obtain ⟨m', d', hd', hstands⟩ := w.stands_of_place hget (List.getElem?_eq_getElem hlength)
  cases hi.symm.trans hd'
  exact ⟨k, m', i, _, hstands⟩

/-- A declared item stands in its module. -/
theorem stands_of_declares (w : LinkedFrom asts analysis modules s p) {name : String}
    (h : Declares (moduleSources asts) p name item d) :
    ∃ k m i, m.name = name ∧ Stands asts analysis modules s k m i item d := by
  obtain ⟨h, hh, hid, i, hi, hd⟩ := h
  rw [w.program] at hh
  obtain ⟨⟨k, h'⟩, hentry, rfl⟩ := List.mem_map.mp hh
  have hget := OrdMap.get?_eq_some_iff.mpr hentry
  obtain ⟨hk, m, hm⟩ := w.parts.located k h' hget
  -- the name is that of the module: some file declares it
  have hname : m.name = name := by
    obtain ⟨source, hs, -⟩ := List.mem_flatMap.mp (List.mem_of_getElem? hi)
    obtain ⟨hs, hsource⟩ := List.mem_filter.mp hs
    rw [decide_eq_true_eq] at hsource
    have hplaced : placed (moduleIds (moduleSources asts)) k source = true :=
      decide_eq_true (by rw [hsource, ← hk]; exact hid)
    exact Option.some.inj ((w.parts.named source hs k m hplaced hm).symm.trans hsource)
  rw [← hname, w.itemsOf_eq hm, List.getElem?_map] at hi
  obtain ⟨q, hq, rfl⟩ := Option.map_eq_some_iff.mp hi
  obtain ⟨m', d', hd', hstands⟩ := w.stands_of_place hget hq
  cases hd.symm.trans hd'
  cases hm.symm.trans hstands.module
  exact ⟨k, m, i, hname, hstands⟩

theorem declares_of_stands (w : LinkedFrom asts analysis modules s p) (h : Stands asts analysis modules s k m i item d) :
    Declares (moduleSources asts) p m.name item d := by
  obtain ⟨hm, ⟨file, hi⟩, base, next, definitions, hpart, hd, -⟩ := h
  obtain ⟨source, hs, hplaced, -, -⟩ := mem_itemsIn.mp (List.mem_of_getElem? hi)
  obtain ⟨h, hh⟩ := w.parts.present source hs k hplaced
  have hdefinitions : h.definitions = definitions := by
    rw [← hpart.modules, hh]
    rfl
  refine ⟨h, ?_, ?_, i, ?_, hdefinitions ▸ hd⟩
  · rw [w.program]
    exact List.mem_map.mpr ⟨_, OrdMap.get?_eq_some_iff.mp hh, rfl⟩
  · rw [(w.parts.located k h hh).1]
    exact w.graph.name k m hm
  · rw [w.itemsOf_eq hm, List.getElem?_map, hi]
    rfl

end LinkedFrom

/-! ## Which identity each declaration has -/

theorem length_definitions {k : Nat} {items : List (String × Item)} {definitions : OrdMap String ModuleDefinition}
    (h : Defined k items definitions) : definitions.entries.length = items.length := by
  have hperm : definitions.keys.Perm (items.map (·.2.name)) := by
    refine (List.perm_ext_iff_of_nodup definitions.nodup_keys h.nodup).mpr fun name => ?_
    rw [← h.contains_iff, OrdMap.contains, Option.isSome_iff_exists]
    exact OrdMap.mem_keys_iff
  simpa [OrdMap.keys] using hperm.length_eq

/-- An item has its place as its identity. -/
theorem Stands.id_eq (w : LinkedFrom asts analysis modules s p)
    (h : Stands asts analysis modules s k m i item d) :
    d.id = ⟨k, i⟩ ∧ i < m.definitions.entries.length := by
  obtain ⟨hm, ⟨file, hi⟩, base, next, definitions, hpart, hd, hdefines⟩ := h
  have hsees := w.sees hm
  have hdefined := w.graph.definitions k m hm
  constructor
  · rw [hdefines.id, Lowerer.globalId]
    show ((namesOf asts analysis m).globals.get? item.name).getD _ = _
    rw [hsees.own item.name _ ((hdefined.get_iff _ _).mpr ⟨i, _, hi, rfl, rfl⟩)]
    rfl
  · rw [length_definitions hdefined]
    exact (List.getElem?_eq_some_iff.mp hi).1

/-- A member has the identity planned for its key, between the items and the local identities. -/
theorem Stands.member_eq (w : LinkedFrom asts analysis modules s p)
    (h : Stands asts analysis modules s k m i item d) {j : Nat} {id : DefId}
    (hid : d.memberIds[j]? = some id) :
    ∃ key, (memberKeys item)[j]? = some key ∧
      (planIdentities analysis asts).members.get? (toLex (m.name, key)) = some id := by
  obtain ⟨hm, ⟨file, hi⟩, base, next, definitions, hpart, hd, hdefines⟩ := h
  have hsees := w.sees hm
  rw [hdefines.members, List.getElem?_map] at hid
  obtain ⟨key, hkey, rfl⟩ := Option.map_eq_some_iff.mp hid
  obtain ⟨id, hplan, hget⟩ := hsees.members _ (List.mem_of_getElem? hi) key (List.mem_of_getElem? hkey)
  refine ⟨key, hkey, ?_⟩
  show _ = some (((namesOf asts analysis m).members.get? key).getD _)
  rw [hplan, hget]
  rfl

/-- Planned members stand between the items and the local identities of their module, each key with its own. -/
theorem LinkedFrom.planned_member (w : LinkedFrom asts analysis modules s p) (hm : modules.get? k = some m) {base : Nat}
    (hbase : (planIdentities analysis asts).nextByModule.get? k = some base) :
    Given k m.definitions.entries.length (ownMembers (planIdentities analysis asts).members m.name, base) := by
  obtain ⟨next, hnext, hgiven⟩ := (w.plans hm).members
  rw [w.graph.id k m hm] at hnext hgiven
  cases hbase.symm.trans hnext
  exact hgiven

/-- A member's identity is one of its module's, after the items and before what is local. -/
theorem Stands.member_placed (w : LinkedFrom asts analysis modules s p)
    (h : Stands asts analysis modules s k m i item d) {id : DefId} (hid : id ∈ d.memberIds) {base : Nat}
    (hbase : (planIdentities analysis asts).nextByModule.get? k = some base) :
    id.module = k ∧ m.definitions.entries.length ≤ id.index ∧ id.index < base := by
  obtain ⟨j, hj⟩ := List.mem_iff_getElem?.mp hid
  obtain ⟨key, -, hplan⟩ := h.member_eq w hj
  rw [← ownMembers_get] at hplan
  exact mem_idRange.mp ((w.planned_member h.module hbase).placed key id hplan)

/-! ## Apart from each other -/

theorem append_injective (start : String) : Function.Injective fun name => start ++ name := fun name name' h => by
  have hlist : (start ++ name).toList = (start ++ name').toList := congrArg String.toList h
  rw [String.toList_append, String.toList_append] at hlist
  exact String.toList_inj.mp (List.append_cancel_left hlist)

/-- The keys of an item's members, by their names. -/
theorem memberKeys_eq (item : Item) : ∃ key : String → String, Function.Injective key ∧
    memberKeys item = (memberNames item).map key := by
  cases item with
  | struct node => exact ⟨_, append_injective (node.name ++ "."), (List.map_map ..).symm⟩
  | enum node => exact ⟨_, append_injective (node.name ++ "::"), (List.map_map ..).symm⟩
  | state node => exact ⟨_, append_injective (node.name ++ "."), (List.map_map ..).symm⟩
  | function node => exact ⟨id, Function.injective_id, rfl⟩
  | agent node => exact ⟨id, Function.injective_id, rfl⟩
  | pipeline node => exact ⟨id, Function.injective_id, rfl⟩
  | safetyBound node => exact ⟨id, Function.injective_id, rfl⟩

/-- Members of one item with one key have one name. -/
theorem memberNames_of_key {item : Item} {i j : Nat} {key : String} (hi : (memberKeys item)[i]? = some key)
    (hj : (memberKeys item)[j]? = some key) : (memberNames item)[i]? = (memberNames item)[j]? := by
  obtain ⟨f, hf, hkeys⟩ := memberKeys_eq item
  rw [hkeys, List.getElem?_map] at hi hj
  obtain ⟨a, ha, hka⟩ := Option.map_eq_some_iff.mp hi
  obtain ⟨b, hb, hkb⟩ := Option.map_eq_some_iff.mp hj
  rw [ha, hb, hf (hka.trans hkb.symm)]

theorem Stands.eq_of_place
    (h : Stands asts analysis modules s k m i item d) (h' : Stands asts analysis modules s k m' i item' d') :
    m = m' ∧ item = item' := by
  obtain ⟨file, hi⟩ := h.place
  obtain ⟨file', hi'⟩ := h'.place
  cases h.module.symm.trans h'.module
  cases hi.symm.trans hi'
  exact ⟨rfl, rfl⟩

/-- Members with one identity are one member. -/
theorem Stands.eq_of_member (w : LinkedFrom asts analysis modules s p) {i' : Nat} (h : Stands asts analysis modules s k m i item d)
    (h' : Stands asts analysis modules s k' m' i' item' d') {j j' : Nat} {id : DefId} (hj : d.memberIds[j]? = some id)
    (hj' : d'.memberIds[j']? = some id) :
    m = m' ∧ item = item' ∧ (memberNames item)[j]? = (memberNames item')[j']? := by
  obtain ⟨base, _, _, hpart, -, -⟩ := h.part
  obtain ⟨base', _, _, hpart', -, -⟩ := h'.part
  have hk := (h.member_placed w (List.mem_of_getElem? hj) hpart.planned).1
  have hk' := (h'.member_placed w (List.mem_of_getElem? hj') hpart'.planned).1
  cases hk.symm.trans hk'
  cases h.module.symm.trans h'.module
  obtain ⟨key, hkey, hplan⟩ := h.member_eq w hj
  obtain ⟨key', hkey', hplan'⟩ := h'.member_eq w hj'
  rw [← ownMembers_get] at hplan hplan'
  cases (w.planned_member h.module hpart.planned).injective key key' id hplan hplan'
  obtain ⟨file, hi⟩ := h.place
  obtain ⟨file', hi'⟩ := h'.place
  have hname : item.name = item'.name := by
    rw [← ownerOf_memberKey (identifier_item w.named (List.mem_of_getElem? hi)) (List.mem_of_getElem? hkey)]
    exact ownerOf_memberKey (identifier_item w.named (List.mem_of_getElem? hi')) (List.mem_of_getElem? hkey')
  have hitem := List.inj_on_of_nodup_map (w.graph.definitions _ m h.module).nodup (List.mem_of_getElem? hi)
    (List.mem_of_getElem? hi') hname
  cases hitem
  exact ⟨rfl, rfl, memberNames_of_key hkey hkey'⟩

/-- A local identity is one of its module's, after all planned ones. -/
theorem LinkedFrom.binding_placed (w : LinkedFrom asts analysis modules s p) {id : DefId}
    (hid : id ∈ p.definitions.flatMap HirDefinition.bindings) :
    ∃ k base, (planIdentities analysis asts).nextByModule.get? k = some base ∧ id.module = k ∧ base ≤ id.index := by
  unfold HirProgram.definitions at hid
  rw [w.program, List.flatMap_assoc] at hid
  obtain ⟨h, hh, hid⟩ := List.mem_flatMap.mp hid
  obtain ⟨⟨k, h'⟩, hentry, rfl⟩ := List.mem_map.mp hh
  obtain ⟨m, base, next, -, hpart⟩ := w.part_of_module (OrdMap.get?_eq_some_iff.mpr hentry)
  rw [hpart.bindings] at hid
  obtain ⟨hk, hle, -⟩ := mem_idRange.mp hid
  exact ⟨k, base, hpart.planned, hk, hle⟩

/-- What gives each module a range of its identities gives them all different ones. -/
theorem LinkedFrom.nodup_of_ranges (w : LinkedFrom asts analysis modules s p) {given : HirDefinition → List DefId}
    (hrange : ∀ k h, s.modules.get? k = some h → ∃ first last, h.definitions.flatMap given = idRange k first last) :
    (p.definitions.flatMap given).Nodup := by
  unfold HirProgram.definitions
  rw [w.program, List.flatMap_assoc, OrdMap.values, List.flatMap_map, List.nodup_flatMap]
  refine ⟨fun e he => ?_, s.modules.sorted.imp_of_mem fun {a b} ha hb hab => ?_⟩
  · obtain ⟨first, last, heq⟩ := hrange e.1 e.2 (OrdMap.get?_eq_some_iff.mpr he)
    rw [heq]
    exact nodup_idRange _ _ _
  · obtain ⟨first, last, heq⟩ := hrange a.1 a.2 (OrdMap.get?_eq_some_iff.mpr ha)
    obtain ⟨first', last', heq'⟩ := hrange b.1 b.2 (OrdMap.get?_eq_some_iff.mpr hb)
    show List.Disjoint (a.2.definitions.flatMap given) (b.2.definitions.flatMap given)
    rw [heq, heq']
    intro id hid hid'
    have hmodule := (mem_idRange.mp hid).1.symm.trans (mem_idRange.mp hid').1
    exact absurd hmodule (ne_of_lt hab)

theorem LinkedFrom.nodup_bindings (w : LinkedFrom asts analysis modules s p) :
    (p.definitions.flatMap HirDefinition.bindings).Nodup := by
  refine w.nodup_of_ranges fun k h hh => ?_
  obtain ⟨m, base, next, -, hpart⟩ := w.part_of_module hh
  exact ⟨base, next, hpart.bindings⟩

/-! ## Imports -/

theorem joinPath_pair (a b : String) : joinPath [a, b] = a ++ "::" ++ b := by
  rw [joinPath, String.intercalate_cons_cons, String.intercalate_singleton]

theorem source_of_id {sources : List ModuleSource} {name : String} {k : Nat} (h : (moduleIds sources).get? name = some k) :
    ∃ source ∈ sources, moduleName source.ast = some name := by
  obtain ⟨⟨n, i⟩, hn, heq⟩ := List.mem_map.mp (OrdMap.mem_of_get?_ofList h)
  cases heq
  have hkey : n ∈ OrdMap.keys _ := List.mem_of_getElem? (List.mem_zipIdx_iff_getElem?.mp hn)
  obtain ⟨_, hget⟩ := OrdMap.mem_keys_iff.mp hkey
  obtain ⟨name, hname, heq⟩ := List.mem_map.mp (OrdMap.mem_of_get?_ofList hget)
  cases heq
  exact List.mem_filterMap.mp hname

/-- A variant path of an imported enum is looked up as its key under the local name. -/
theorem renamed_variant {item : Item} {i : Nat} {variant : String} (h : (variantNames item)[i]? = some variant)
    (localName : String) : ∃ key, (memberKeys item)[i]? = some key ∧
      renameMemberOwner key item.name localName = joinPath [localName, variant] := by
  cases item with
  | enum node =>
    refine ⟨variantKey node.name variant, ?_, ?_⟩
    · have hmap : memberKeys (.enum node) = (variantNames (.enum node)).map (variantKey node.name) := (List.map_map ..).symm
      rw [hmap, List.getElem?_map, h]
      rfl
    · rw [joinPath_pair, ← String.toList_inj, String.toList_append, String.toList_append, List.append_assoc]
      refine renameMemberOwner_append ?_ localName
      show (node.name ++ "::" ++ variant).toList = _
      rw [String.toList_append, String.toList_append, List.append_assoc]
      rfl
  | struct node => simp [variantNames] at h
  | state node => simp [variantNames] at h
  | function node => simp [variantNames] at h
  | agent node => simp [variantNames] at h
  | pipeline node => simp [variantNames] at h
  | safetyBound node => simp [variantNames] at h

/-- What a use carries that is written with the local name of an import. -/
theorem LinkedFrom.carriesImport (w : LinkedFrom asts analysis modules s p) (hm : modules.get? k = some m) {j : Nat}
    {t : ResolvedModule} {localName : String} {i : ResolvedImport} (hi : m.imports.get? localName = some i) {q : String × Item}
    (htargets : Targets (moduleIds (moduleSources asts)) (moduleSources asts) modules i k' j t q)
    (hstands : Stands asts analysis modules s k' t j q.2 d) {base : Nat} {use : Use} {referent : Referent}
    (h : Resolved (lowererOf k (namesOf asts analysis m)) base use referent) : CarriesImport localName q.2 d use referent := by
  have hsees := w.sees hm
  -- a path of the import is looked up among the members the plan has for the target
  have hmember : ∀ (l : Nat) (variant : String) (id d' : DefId), (variantNames q.2)[l]? = some variant →
      d.memberIds[l]? = some id → (lowererOf k (namesOf asts analysis m)).memberOf [localName, variant] = some d' → d' = id := by
    intro l variant id d' hvariant hid hget
    obtain ⟨key, hkey, hrename⟩ := renamed_variant hvariant localName
    obtain ⟨key', hkey', hplan⟩ := hstands.member_eq w hid
    cases hkey.symm.trans hkey'
    obtain ⟨id', hplan', hget'⟩ := hsees.importedMembers localName i k' j t q hi htargets key (List.mem_of_getElem? hkey)
    cases hplan.symm.trans hplan'
    unfold Lowerer.memberOf at hget
    rw [← hrename, show (lowererOf k (namesOf asts analysis m)).members = (namesOf asts analysis m).members from rfl,
      hget'] at hget
    exact (Option.some.inj hget).symm
  refine ⟨?_, fun l variant id hvariant hid => ?_, fun l variant id hvariant hid => ?_⟩
  · rintro rfl
    cases h with
    | free global =>
      rw [show (lowererOf k (namesOf asts analysis m)).globals = (namesOf asts analysis m).globals from rfl,
        hsees.imported localName i hi, htargets.definition] at global
      cases global
      rw [(hstands.id_eq w).1]
  · rintro rfl
    cases h with
    | path member => rw [hmember l variant id _ hvariant hid member]
  · rintro rfl
    cases h with
    | pattern member => rw [hmember l variant id _ hvariant hid member]

/-- The declaration an import names, and what the uses of its local name carry. -/
theorem LinkedFrom.import_carried (w : LinkedFrom asts analysis modules s p) {source : ModuleSource}
    (hs : source ∈ moduleSources asts) {name : String} (hname : moduleName source.ast = some name) {node : UseNode}
    (hnode : node ∈ source.ast.imports) {symbol : String} (hsymbol : node.path.getLast? = some symbol) :
    ∃ target d', Declares (moduleSources asts) p (joinPath node.path.dropLast) target d' ∧ target.name = symbol ∧
      ∀ item d, Declares (moduleSources asts) p name item d →
        List.Forall₂ (CarriesImport (node.aliasName.getD symbol) target d') item.uses d.referents := by
  obtain ⟨k, m, hplaced, hm⟩ := w.graph.declared source hs
  cases (w.parts.named source hs k m hplaced hm).symm.trans hname
  obtain ⟨i, hbinds⟩ := w.graph.bound source hs k hplaced node hnode symbol hsymbol
  have hi := (w.graph.imports k m hm _ i).mpr ⟨source, hs, hplaced, node, hnode, hbinds⟩
  obtain ⟨symbol', k', t, definition, hsymbol', htarget, ht, hdefinition, -, -, hi'⟩ := hbinds
  cases hsymbol.symm.trans hsymbol'
  obtain ⟨j, q, hq, hqname, rfl⟩ := ((w.graph.definitions k' t ht).get_iff symbol definition).mp hdefinition
  obtain ⟨d', hstands'⟩ := w.stands_of_item ht hq
  -- the module's number is that of the imported name, so the name is its own
  have htname : t.name = joinPath node.path.dropLast := by
    obtain ⟨home, hhome, hhomeName⟩ := source_of_id htarget
    have hplaced' : placed (moduleIds (moduleSources asts)) k' home = true :=
      decide_eq_true (by rw [hhomeName]; exact htarget)
    exact Option.some.inj ((w.parts.named home hhome k' t hplaced' ht).symm.trans hhomeName)
  refine ⟨q.2, d', htname ▸ w.declares_of_stands hstands', hqname, fun item d hd => ?_⟩
  obtain ⟨k'', m'', i'', hm'', hstands⟩ := w.stands_of_declares hd
  have hkk : k'' = k := by
    have hk'' := w.graph.name k'' m'' hstands.module
    rw [hm'', w.graph.name k m hm] at hk''
    exact (Option.some.inj hk'').symm
  subst hkk
  cases hm.symm.trans hstands.module
  obtain ⟨base, _, _, _, _, hdefines⟩ := hstands.part
  exact hdefines.referents.imp fun use referent hr =>
    w.carriesImport hm hi ⟨ht, hq, by rw [hi']; rfl⟩ hstands' hr

/-- What is local is apart from what is planned. -/
theorem LinkedFrom.bindings_apart (w : LinkedFrom asts analysis modules s p) {id : DefId}
    (hid : id ∈ p.definitions.flatMap HirDefinition.bindings) :
    id ∉ p.definitions.map (·.id) ∧ id ∉ p.definitions.flatMap HirDefinition.memberIds := by
  obtain ⟨k, base, hbase, hk, hle⟩ := w.binding_placed hid
  constructor
  · intro hmem
    obtain ⟨d, hd, rfl⟩ := List.mem_map.mp hmem
    obtain ⟨k', m, i, item, hstands⟩ := w.stands_of_mem hd
    obtain ⟨hd, hi⟩ := hstands.id_eq w
    rw [hd] at hk hle
    cases hk
    exact absurd (hi.trans_le ((w.planned_member hstands.module hbase).le.trans hle)) (lt_irrefl i)
  · intro hmem
    obtain ⟨d, hd, hmem⟩ := List.mem_flatMap.mp hmem
    obtain ⟨k', m, i, item, hstands⟩ := w.stands_of_mem hd
    obtain ⟨_, _, _, hpart, -, -⟩ := hstands.part
    obtain ⟨hk', -, hlt⟩ := hstands.member_placed w hmem hpart.planned
    cases hk.symm.trans hk'
    cases hbase.symm.trans hpart.planned
    exact absurd hle (not_le.mpr hlt)

/-- Members are apart from items. -/
theorem LinkedFrom.members_apart (w : LinkedFrom asts analysis modules s p) {id : DefId}
    (hid : id ∈ p.definitions.flatMap HirDefinition.memberIds) : id ∉ p.definitions.map (·.id) := by
  intro hmem
  obtain ⟨d, hd, hid⟩ := List.mem_flatMap.mp hid
  obtain ⟨d', hd', rfl⟩ := List.mem_map.mp hmem
  obtain ⟨k, m, i, item, hstands⟩ := w.stands_of_mem hd
  obtain ⟨k', m', i', item', hstands'⟩ := w.stands_of_mem hd'
  obtain ⟨_, _, _, hpart, -, -⟩ := hstands.part
  obtain ⟨hk, hle, -⟩ := hstands.member_placed w hid hpart.planned
  obtain ⟨hd', hi'⟩ := hstands'.id_eq w
  rw [hd'] at hk hle
  cases hk
  cases hstands.module.symm.trans hstands'.module
  exact absurd hle (not_le.mpr hi')

/-- Every item of a module is declared. -/
theorem LinkedFrom.exists_declares (w : LinkedFrom asts analysis modules s p) {name : String}
    (hitem : item ∈ itemsOf (moduleSources asts) name) : ∃ d, Declares (moduleSources asts) p name item d := by
  obtain ⟨source, hfiltered, hmem⟩ := List.mem_flatMap.mp hitem
  obtain ⟨hs, hsource⟩ := List.mem_filter.mp hfiltered
  rw [decide_eq_true_eq] at hsource
  obtain ⟨k, m, hplaced, hm⟩ := w.graph.declared source hs
  cases (w.parts.named source hs k m hplaced hm).symm.trans hsource
  obtain ⟨i, hi⟩ := List.mem_iff_getElem?.mp
    (mem_itemsIn.mpr ⟨source, hs, hplaced, rfl, hmem⟩ : (source.file, item) ∈ itemsIn _ k (moduleSources asts))
  obtain ⟨d, hstands⟩ := w.stands_of_item hm hi
  exact ⟨d, w.declares_of_stands hstands⟩

end

/-! ## The package -/

/-- **Linking gives every declaration an identity of its own**, every local one another, and a use of an import the identity
of what it names. -/
theorem package_identities {parser : Parser} {sources : List PackageSource} {p : HirProgram}
    {reports : List CompilerDiagnostic} (h : compilePackage parser.checkSyl sources = ⟨some p, reports⟩) :
    Identities (parsedSources parser sources) p := by
  obtain ⟨asts, s, hsources, w⟩ := compilePackage_linked h
  rw [hsources]
  refine ⟨fun name item hitem => w.exists_declares hitem, fun d hd => ?_, fun name item d name' item' d' hd hd' hid => ?_,
    fun name item d name' item' d' hd hd' i j id hi hj => ?_, w.nodup_bindings, fun id hid => w.bindings_apart hid,
    fun id hid => w.members_apart hid,
    fun source hs name hname node hnode symbol hsymbol => w.import_carried hs hname hnode hsymbol⟩
  · obtain ⟨k, m, i, item, hstands⟩ := w.stands_of_mem hd
    obtain ⟨_, _, _, _, _, hdefines⟩ := hstands.part
    refine ⟨m.name, item, w.declares_of_stands hstands, hdefines.name, ?_, hdefines.binders⟩
    obtain ⟨key, -, hkeys⟩ := memberKeys_eq item
    rw [hdefines.members, List.length_map, hkeys, List.length_map]
  · obtain ⟨k, m, i, rfl, hstands⟩ := w.stands_of_declares hd
    obtain ⟨k', m', i', rfl, hstands'⟩ := w.stands_of_declares hd'
    rw [(hstands.id_eq w).1, (hstands'.id_eq w).1] at hid
    cases hid
    obtain ⟨rfl, rfl⟩ := hstands.eq_of_place hstands'
    exact ⟨rfl, rfl⟩
  · obtain ⟨k, m, _, rfl, hstands⟩ := w.stands_of_declares hd
    obtain ⟨k', m', _, rfl, hstands'⟩ := w.stands_of_declares hd'
    obtain ⟨rfl, rfl, hnames⟩ := hstands.eq_of_member w hstands' hi hj
    exact ⟨rfl, rfl, hnames⟩

/-- A range of a one-line text. -/
def lineSpan (start stop : Nat) : Span := ⟨start, stop, 1, start + 1, 1, stop + 1⟩

/-- `module a; pub enum E { A } pub fn f() -> I32 { 1 }`. -/
def homeAst : SourceFile :=
  { module := some ⟨["a"], lineSpan 0 9⟩, imports := []
    items := [
      .enum ⟨true, "E", [⟨"A", [], lineSpan 23 24⟩], lineSpan 10 26⟩,
      .function ⟨true, false, "f", [], some (.path ["I32"] [] (lineSpan 41 44)), none,
        .mk [.expression (.mk (.literal (.integer 1)) (lineSpan 47 48)) (lineSpan 47 48)] (lineSpan 45 50), lineSpan 27 50⟩]
    span := lineSpan 0 50 }

/-- `module b; use a::E as F; use a::f as g; fn main() -> I32 { let x = F::A; g() }`. -/
def userAst : SourceFile :=
  { module := some ⟨["b"], lineSpan 0 9⟩
    imports := [⟨["a", "E"], some "F", lineSpan 10 24⟩, ⟨["a", "f"], some "g", lineSpan 25 39⟩]
    items := [.function ⟨false, false, "main", [], some (.path ["I32"] [] (lineSpan 53 56)), none,
      .mk [.let_ "x" none (.mk (.path ["F", "A"]) (lineSpan 67 71)) (lineSpan 59 72),
        .expression (.mk (.call (.mk (.literal (.identifier "g")) (lineSpan 73 74)) []) (lineSpan 73 76)) (lineSpan 73 76)] (lineSpan 57 78),
      lineSpan 40 78⟩]
    span := lineSpan 0 78 }

def demoSources : List PackageSource :=
  [⟨"b.syl", "module b; use a::E as F; use a::f as g; fn main() -> I32 { let x = F::A; g() }"⟩,
    ⟨"a.syl", "module a; pub enum E { A } pub fn f() -> I32 { 1 }"⟩]

/-- The parser on the two files. -/
def demoParser : Parser where
  checkSyl _ text :=
    if text = "module a; pub enum E { A } pub fn f() -> I32 { 1 }" then ⟨some homeAst, []⟩
    else if text = "module b; use a::E as F; use a::f as g; fn main() -> I32 { let x = F::A; g() }" then ⟨some userAst, []⟩
    else ⟨none, [⟨"SYL0001", .error, "expected program", "", default⟩]⟩
  named file text ast h := by
    split_ifs at h
    · cases h
      exact ⟨by decide, by decide⟩
    · cases h
      exact ⟨by decide, by decide⟩

/-- Two modules, an enum and a function imported under other names. -/
theorem demo_identities : ∃ p, (compilePackage demoParser.checkSyl demoSources).hir = some p ∧
    Identities (parsedSources demoParser demoSources) p := by
  have hsome : (compilePackage demoParser.checkSyl demoSources).hir.isSome = true := by decide +kernel
  obtain ⟨p, hp⟩ := Option.isSome_iff_exists.mp hsome
  refine ⟨p, hp, @package_identities demoParser demoSources p (compilePackage demoParser.checkSyl demoSources).diagnostics ?_⟩
  rw [← hp]

end Package
end Syllog
