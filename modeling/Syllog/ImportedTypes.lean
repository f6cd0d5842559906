import Syllog.GraphSound
import Syllog.SingleFile
/-!
# ImportedTypes — what the types of an imported signature mean

A file that imports an item resolves the types of its signature again, by their bare names among its own symbols.  They
denote what they denote at home exactly where both modules bind those names to one definition.
-/
namespace Syllog
namespace Modules

open Hir Ast Semantic

/-! ## Meaning -/

/-- The definition a name stands for in a module. -/
def ResolvedModule.binding (m : ResolvedModule) (name : String) : Option QualifiedDefId :=
  ((m.definitions.get? name).map (·.id)).or ((m.imports.get? name).map (·.definition))

/-- Two names of types stand for one definition. -/
def sameName (f g : String → Option QualifiedDefId) (name name' : String) : Bool := (f name).isSome && f name = g name'

mutual
/-- Two types denote the same: the same builtins around the same definitions, where `f` and `g` say what names stand for. -/
def sameMeaning (f g : String → Option QualifiedDefId) : ResolvedType → ResolvedType → Bool
  | .reference region mutable inner, .reference region' mutable' inner' =>
    region = region' && mutable = mutable' && sameMeaning f g inner inner'
  | .primitive primitive, .primitive primitive' => primitive = primitive'
  | .struct name, .struct name'                 => sameName f g name name'
  | .enum name, .enum name'                     => sameName f g name name'
  | .state name, .state name'                   => sameName f g name name'
  | .option inner, .option inner'               => sameMeaning f g inner inner'
  | .result ok err, .result ok' err'            => sameMeaning f g ok ok' && sameMeaning f g err err'
  | .array item, .array item'                   => sameMeaning f g item item'
  | .tuple items, .tuple items'                 => sameMeanings f g items items'
  | .unit, .unit                                => true
  | _, _                                        => false
def sameMeanings (f g : String → Option QualifiedDefId) : List ResolvedType → List ResolvedType → Bool
  | [], []           => true
  | a :: as, b :: bs => sameMeaning f g a b && sameMeanings f g as bs
  | _, _             => false
end

section
variable {f g : String → Option QualifiedDefId} {x y : String → ResolvedType}

mutual
/-- A well-formed type denotes the same under two readings exactly where its names do. -/
theorem sameMeaning_readWith : ∀ t : TypeNode, t.wellFormed = true →
    (sameMeaning f g (t.readWith x) (t.readWith y) = true ↔ ∀ name ∈ t.names, sameMeaning f g (x name) (y name) = true)
  | .reference _ _ inner _, h => by
    simp only [TypeNode.wellFormed] at h
    simpa [TypeNode.readWith, sameMeaning, TypeNode.names] using sameMeaning_readWith inner h
  | .array inner _, h => by
    simp only [TypeNode.wellFormed] at h
    simpa [TypeNode.readWith, sameMeaning, TypeNode.names] using sameMeaning_readWith inner h
  | .tuple [] _, _ => by simp [TypeNode.readWith, sameMeaning, TypeNode.names, typeNames]
  | .tuple (t :: ts) _, h => by
    simp only [TypeNode.wellFormed] at h
    simpa [TypeNode.readWith, sameMeaning, TypeNode.names] using sameMeanings_readAllWith (t :: ts) h
  | .path [] _ _, h => by cases h
  | .path (_ :: _ :: _) _ _, h => by cases h
  | .path [name] arguments _, h => by
    simp only [TypeNode.wellFormed, Bool.and_eq_true] at h
    have hall := sameMeanings_readAllWith arguments h.2
    simp only [TypeNode.readWith, TypeNode.names]
    by_cases hoption : name = "Option"
    · simp only [if_pos hoption, decide_eq_true_eq, if_pos (Or.inl hoption : name = "Option" ∨ name = "Result")] at h ⊢
      match arguments, h.1, hall with
      | [item], _, hall =>
        rw [← hall]
        simp [readAllWith, sameMeaning, sameMeanings]
    by_cases hresult : name = "Result"
    · simp only [if_neg hoption, if_pos hresult, decide_eq_true_eq,
        if_pos (Or.inr hresult : name = "Option" ∨ name = "Result")] at h ⊢
      match arguments, h.1, hall with
      | [ok, err], _, hall =>
        rw [← hall]
        simp [readAllWith, sameMeaning, sameMeanings]
    simp only [if_neg hoption, if_neg hresult, if_neg (not_or.mpr ⟨hoption, hresult⟩)]
    by_cases hunit : name = "Unit"
    · simp [hunit, sameMeaning]
    · simp [hunit]
theorem sameMeanings_readAllWith : ∀ ts : List TypeNode, wellFormedAll ts = true →
    (sameMeanings f g (readAllWith x ts) (readAllWith y ts) = true ↔
      ∀ name ∈ typeNames ts, sameMeaning f g (x name) (y name) = true)
  | [], _ => by simp [readAllWith, sameMeanings, typeNames]
  | t :: ts, h => by
    simp only [wellFormedAll, Bool.and_eq_true] at h
    simp only [readAllWith, sameMeanings, Bool.and_eq_true, sameMeaning_readWith t h.1,
      sameMeanings_readAllWith ts h.2, typeNames, List.mem_append, or_imp, forall_and]
end

end

/-! ## Signatures under two readings -/

/-- The types of an item's signature that count: of fields with one name, the last. -/
def keptTypes : Item → List TypeNode
  | .struct node => (OrdMap.ofList ((node.fields.map (·.name)).zip (node.fields.map (·.ty)))).values
  | item         => item.signatureTypes

theorem keptTypes_subset (item : Item) : keptTypes item ⊆ item.signatureTypes := by
  cases item with
  | struct node =>
    intro t ht
    obtain ⟨e, he, rfl⟩ := List.mem_map.mp ht
    have hget := OrdMap.get?_eq_some_iff.mpr he
    exact (List.of_mem_zip (OrdMap.mem_of_get?_ofList hget)).2
  | enum node => exact List.Subset.refl _
  | function node => exact List.Subset.refl _
  | state node => exact List.Subset.refl _
  | agent node => exact List.Subset.refl _
  | pipeline node => exact List.Subset.refl _
  | safetyBound node => exact List.Subset.refl _

section
variable {R : ResolvedType → ResolvedType → Prop} {x y : TypeNode → ResolvedType}

theorem forall₂_map_iff {α : Type} {f g : α → ResolvedType} {l : List α} :
    List.Forall₂ R (l.map f) (l.map g) ↔ ∀ a ∈ l, R (f a) (g a) := by
  rw [List.forall₂_map_left_iff, List.forall₂_map_right_iff, List.forall₂_same]

theorem forall₂_append_iff {u u' v v' : List ResolvedType} (hlength : u.length = u'.length) :
    List.Forall₂ R (u ++ v) (u' ++ v') ↔ List.Forall₂ R u u' ∧ List.Forall₂ R v v' := by
  constructor
  · intro h
    have htake := List.forall₂_take u.length h
    have hdrop := List.forall₂_drop u.length h
    rw [List.take_left', hlength, List.take_left'] at htake
    · rw [List.drop_left', hlength, List.drop_left'] at hdrop
      · exact ⟨htake, hdrop⟩
      · rfl
      · rfl
    · rfl
    · rfl
  · exact fun h => List.rel_append h.1 h.2

theorem forall₂_option_iff {o : Option TypeNode} :
    List.Forall₂ R (o.map x).toList (o.map y).toList ↔ ∀ t ∈ o.toList, R (x t) (y t) := by
  cases o <;> simp

theorem forall₂_callable_iff (hunit : R .unit .unit) {parameters : List Parameter} {returnType : Option TypeNode} :
    List.Forall₂ R (parameters.map (fun parameter => x parameter.ty) ++ [(returnType.map x).getD .unit])
        (parameters.map (fun parameter => y parameter.ty) ++ [(returnType.map y).getD .unit]) ↔
      ∀ t ∈ parameters.map (·.ty) ++ returnType.toList, R (x t) (y t) := by
  rw [forall₂_append_iff (by simp), forall₂_map_iff]
  simp only [List.mem_append, or_imp, forall_and, List.forall_mem_map]
  refine and_congr_right fun _ => ?_
  cases returnType with
  | none => simpa using hunit
  | some t => simp

/-- A signature reads the same twice exactly where each type that counts does. -/
theorem signature_forall₂_iff (hunit : R .unit .unit) {item : Item} :
    List.Forall₂ R (item.signature x) (item.signature y) ↔ ∀ t ∈ keptTypes item, R (x t) (y t) := by
  cases item with
  | struct node =>
    have hvalues : ∀ z : TypeNode → ResolvedType, (Item.struct node).signature z =
        (OrdMap.ofList ((node.fields.map (·.name)).zip (node.fields.map (·.ty)))).values.map z := by
      intro z
      rw [← OrdMap.values_ofList_map, Item.signature]
      congr 2
      rw [← List.map_id (node.fields.map (·.name)), List.map_map, List.zip_map', List.zip_map', List.map_map]
      rfl
    rw [hvalues, hvalues, forall₂_map_iff]
    rfl
  | enum node =>
    have hvalues : ∀ z : TypeNode → ResolvedType, (Item.enum node).signature z = (node.variants.flatMap (·.fields)).map z := by
      intro z
      rw [List.map_flatMap]
      rfl
    rw [hvalues, hvalues, forall₂_map_iff]
    rfl
  | function node => exact forall₂_callable_iff hunit
  | state node =>
    have hvalues : ∀ z : TypeNode → ResolvedType, (Item.state node).signature z = (node.fields.map (·.ty)).map z := by
      intro z
      rw [List.map_map]
      rfl
    rw [hvalues, hvalues, forall₂_map_iff]
    rfl
  | agent node =>
    rw [Item.signature, Item.signature, forall₂_append_iff (by cases (property node.fields "input").bind (·.ty) <;> rfl),
      forall₂_option_iff, forall₂_option_iff]
    simp only [keptTypes, Item.signatureTypes, List.mem_append, or_imp, forall_and]
  | pipeline node => exact forall₂_callable_iff hunit
  | safetyBound node => simp [Item.signature, keptTypes, Item.signatureTypes]

end

/-! ## The files of a graph -/

section
variable {ids : OrdMap String Nat} {sources : List ModuleSource} {modules : ModuleMap}

theorem mem_itemsIn {k : Nat} {p : String × Item} : p ∈ itemsIn ids k sources ↔
    ∃ source ∈ sources, placed ids k source = true ∧ p.1 = source.file ∧ p.2 ∈ source.ast.items := by
  unfold itemsIn
  rw [List.mem_flatMap]
  constructor
  · rintro ⟨source, hs, hp⟩
    obtain ⟨hs, hk⟩ := List.mem_filter.mp hs
    obtain ⟨item, hitem, rfl⟩ := List.mem_map.mp hp
    exact ⟨source, hs, hk, rfl, hitem⟩
  · rintro ⟨source, hs, hk, hfile, hitem⟩
    refine ⟨source, List.mem_filter.mpr ⟨hs, hk⟩, List.mem_map.mpr ⟨p.2, hitem, ?_⟩⟩
    rw [← hfile]

/-- The item of a definition is the one it was entered for. -/
theorem itemOf_eq (hgraph : Graph ids sources modules) (hfiles : (sources.map (·.file)).Nodup) {k j : Nat} {m : ResolvedModule}
    (hm : modules.get? k = some m) {p : String × Item} (hp : (itemsIn ids k sources)[j]? = some p) :
    itemOf sources (moduleDefinition k j p.1 p.2) = some p.2 := by
  obtain ⟨source, hs, hk, hfile, hitem⟩ := mem_itemsIn.mp (List.mem_of_getElem? hp)
  have hsource : sources.find? (·.file = p.1) = some source := by
    rw [hfile]
    exact OrdMap.find?_of_nodup hfiles hs
  rw [itemOf]
  show (sources.find? (·.file = p.1)).bind _ = _
  rw [hsource, Option.bind_some]
  show source.ast.items.find? (fun item => item.name = p.2.name ∧ item.span = p.2.span) = _
  have hsome : (source.ast.items.find? fun item => item.name = p.2.name ∧ item.span = p.2.span).isSome = true := by
    rw [List.find?_isSome]
    exact ⟨p.2, hitem, decide_eq_true ⟨rfl, rfl⟩⟩
  obtain ⟨found, hfound⟩ := Option.isSome_iff_exists.mp hsome
  have hname : found.name = p.2.name ∧ found.span = p.2.span := by simpa using List.find?_some hfound
  rw [hfound]
  have hmem : (p.1, found) ∈ itemsIn ids k sources := mem_itemsIn.mpr ⟨source, hs, hk, hfile, List.mem_of_find?_eq_some hfound⟩
  have heq := List.inj_on_of_nodup_map (hgraph.definitions k m hm).nodup hmem (List.mem_of_getElem? hp) hname.1
  exact congrArg (fun q : String × Item => some q.2) heq

/-- The item under an identity. -/
theorem moduleItems_get (hgraph : Graph ids sources modules) (hfiles : (sources.map (·.file)).Nodup) {k j : Nat}
    {m : ResolvedModule} (hm : modules.get? k = some m) {p : String × Item} (hp : (itemsIn ids k sources)[j]? = some p) :
    (moduleItems sources modules).get? ⟨k, j⟩ = some p.2 := by
  have hdef : m.definitions.get? p.2.name = some (moduleDefinition k j p.1 p.2) :=
    ((hgraph.definitions k m hm).get_iff _ _).mpr ⟨j, p, hp, rfl, rfl⟩
  have hmem : (⟨k, j⟩ : QualifiedDefId) ∈ ((modules.values.flatMap fun module => module.definitions.values).filterMap
      fun definition => (itemOf sources definition).map (definition.id, ·)).map (·.1) := by
    refine List.mem_map.mpr ⟨(⟨k, j⟩, p.2), List.mem_filterMap.mpr ⟨moduleDefinition k j p.1 p.2, ?_, ?_⟩, rfl⟩
    · exact List.mem_flatMap.mpr ⟨m, List.mem_map.mpr ⟨(k, m), OrdMap.get?_eq_some_iff.mp hm, rfl⟩,
        List.mem_map.mpr ⟨_, OrdMap.get?_eq_some_iff.mp hdef, rfl⟩⟩
    · rw [itemOf_eq hgraph hfiles hm hp]
      rfl
  obtain ⟨item, hitem⟩ := OrdMap.exists_get?_ofList hmem
  -- whatever stands there was entered for a definition of that identity, so for this one
  obtain ⟨d, hd, heq⟩ := List.mem_filterMap.mp (OrdMap.mem_of_get?_ofList hitem)
  obtain ⟨item', hitem', heq⟩ := Option.map_eq_some_iff.mp heq
  obtain ⟨m', hm', hd⟩ := List.mem_flatMap.mp hd
  obtain ⟨⟨k', m''⟩, hentry, rfl⟩ := List.mem_map.mp hm'
  obtain ⟨⟨name, d'⟩, hdentry, rfl⟩ := List.mem_map.mp hd
  have hm'' := OrdMap.get?_eq_some_iff.mpr hentry
  obtain ⟨j', p', hp', -, rfl⟩ := ((hgraph.definitions k' m'' hm'').get_iff _ _).mp (OrdMap.get?_eq_some_iff.mpr hdentry)
  rw [itemOf_eq hgraph hfiles hm'' hp'] at hitem'
  cases hitem'
  have hid : (⟨k', j'⟩ : QualifiedDefId) = ⟨k, j⟩ := congrArg Prod.fst heq
  cases hid
  cases hp.symm.trans hp'
  rw [show moduleItems sources modules = OrdMap.ofList _ from rfl, hitem]
  exact congrArg (fun e : QualifiedDefId × Item => some e.2) heq.symm

theorem moduleOf_get (hgraph : Graph ids sources modules) {source : ModuleSource} {m : ResolvedModule}
    (h : moduleOf modules source = some m) : ∃ k, modules.get? k = some m ∧ placed ids k source = true := by
  obtain ⟨name, hname, hfind⟩ := Option.bind_eq_some_iff.mp h
  have hmname : m.name = name := by simpa using List.find?_some hfind
  obtain ⟨⟨k, m'⟩, hentry, rfl⟩ := List.mem_map.mp (List.mem_of_find?_eq_some hfind)
  have hm := OrdMap.get?_eq_some_iff.mpr hentry
  refine ⟨k, hm, decide_eq_true ?_⟩
  rw [hname, Option.bind_some, ← hmname]
  exact hgraph.name k _ hm

/-- A file's own item is bound to its definition. -/
theorem binding_own (hgraph : Graph ids sources modules) (hfiles : (sources.map (·.file)).Nodup) {k : Nat} {m : ResolvedModule}
    (hm : modules.get? k = some m) {source : ModuleSource} (hs : source ∈ sources) (hk : placed ids k source = true) {item : Item}
    (hitem : item ∈ source.ast.items) :
    ∃ d, m.definitions.get? item.name = some d ∧ (moduleItems sources modules).get? d.id = some item := by
  obtain ⟨j, hj⟩ := List.mem_iff_getElem?.mp (mem_itemsIn.mpr ⟨source, hs, hk, rfl, hitem⟩ : (source.file, item) ∈ _)
  exact ⟨_, ((hgraph.definitions k m hm).get_iff _ _).mpr ⟨j, _, hj, rfl, rfl⟩, moduleItems_get hgraph hfiles hm hj⟩

/-- What a file sees under a name is what its module binds to it. -/
theorem binding_of_seen (hgraph : Graph ids sources modules) (hfiles : (sources.map (·.file)).Nodup) {k : Nat}
    {m : ResolvedModule} (hm : modules.get? k = some m) {source : ModuleSource} (hs : source ∈ sources)
    (hk : placed ids k source = true) {p : String × Item}
    (hp : p ∈ own source.ast ++ importsFor (moduleItems sources modules) m source) :
    ∃ d, m.binding p.1 = some d ∧ (moduleItems sources modules).get? d = some p.2 := by
  unfold ResolvedModule.binding
  rcases List.mem_append.mp hp with hp | hp
  · obtain ⟨item, hitem, rfl⟩ := List.mem_map.mp hp
    obtain ⟨d, hd, hget⟩ := binding_own hgraph hfiles hm hs hk hitem
    exact ⟨d.id, by simp [hd], hget⟩
  rcases List.mem_append.mp hp with hp | hp
  · obtain ⟨i, hi, hp⟩ := List.mem_filterMap.mp hp
    obtain ⟨item, hitem, rfl⟩ := Option.map_eq_some_iff.mp hp
    obtain ⟨⟨localName, i'⟩, hentry, rfl⟩ := List.mem_map.mp hi
    have hget := OrdMap.get?_eq_some_iff.mpr hentry
    obtain ⟨_, _, _, _, _, symbol, target, t, d, -, -, -, -, -, -, hi'⟩ := (hgraph.imports k m hm localName i').mp hget
    have hlocal : i'.localName = localName := by rw [hi']
    have hfresh : m.definitions.get? localName = none := by simpa [OrdMap.contains] using hgraph.fresh k m hm localName i' hget
    refine ⟨i'.definition, ?_, hitem⟩
    show ((m.definitions.get? i'.localName).map (·.id)).or ((m.imports.get? i'.localName).map (·.definition)) = _
    rw [hlocal, hfresh, hget]
    rfl
  · obtain ⟨d, hd, hp⟩ := List.mem_filterMap.mp hp
    split_ifs at hp
    obtain ⟨item, hitem, rfl⟩ := Option.map_eq_some_iff.mp hp
    obtain ⟨⟨name, d'⟩, hentry, rfl⟩ := List.mem_map.mp hd
    have hget := OrdMap.get?_eq_some_iff.mpr hentry
    obtain ⟨j, q, -, hq, hd'⟩ := ((hgraph.definitions k m hm).get_iff _ _).mp hget
    have hname : d'.name = name := by rw [hd', ← hq]; rfl
    refine ⟨d'.id, ?_, hitem⟩
    show ((m.definitions.get? d'.name).map (·.id)).or _ = _
    rw [hname, hget]
    rfl

/-- What a file reads for a name that is no builtin: a type of the kind of the definition bound to it. -/
theorem named_of_known (hgraph : Graph ids sources modules) (hfiles : (sources.map (·.file)).Nodup) {k : Nat}
    {m : ResolvedModule} (hm : modules.get? k = some m) {source : ModuleSource} (hs : source ∈ sources)
    (hk : placed ids k source = true) {a : Analyzer}
    (ha : Symbols a (own source.ast ++ importsFor (moduleItems sources modules) m source)) {name : String}
    (hbuiltin : Analyzer.builtinTypes.contains name = false) {symbol : TypeSymbol}
    (hsymbol : a.symbols.types.get? name = some symbol) :
    ∃ d item kind, m.binding name = some d ∧ (moduleItems sources modules).get? d = some item ∧ item.typeKind = some kind ∧
      a.named name = symbolType name kind := by
  have hnone : Analyzer.builtinTypes.get? name = none := by simpa [OrdMap.contains] using hbuiltin
  rcases (ha.types name symbol).mp hsymbol with h | ⟨p, hp, rfl, hs'⟩
  · rw [hnone] at h
    cases h
  obtain ⟨kind, hkind, rfl⟩ := Option.map_eq_some_iff.mp hs'
  obtain ⟨d, hd, hitem⟩ := binding_of_seen hgraph hfiles hm hs hk hp
  refine ⟨d, p.2, kind, hd, hitem, hkind, ?_⟩
  unfold Analyzer.named
  rw [hsymbol]

end

/-! ## Names under two readings -/

mutual
theorem names_ne : ∀ (t : TypeNode) {name : String}, name ∈ t.names → name ∉ ["Option", "Result", "Unit"]
  | .reference _ _ inner _, _, h => names_ne inner h
  | .array inner _, _, h => names_ne inner h
  | .tuple items _, _, h => typeNames_ne items h
  | .path [] _ _, _, h => by cases h
  | .path (_ :: _ :: _) _ _, _, h => by cases h
  | .path [n] arguments _, name, h => by
    simp only [TypeNode.names] at h
    split_ifs at h with hgeneric hunit
    · exact typeNames_ne arguments h
    · cases h
    · rw [List.mem_singleton.mp h]
      obtain ⟨hoption, hresult⟩ := not_or.mp hgeneric
      simp [hoption, hresult, hunit]
theorem typeNames_ne : ∀ (ts : List TypeNode) {name : String}, name ∈ typeNames ts → name ∉ ["Option", "Result", "Unit"]
  | [], _, h => by cases h
  | t :: ts, _, h => by
    rcases List.mem_append.mp h with h | h
    · exact names_ne t h
    · exact typeNames_ne ts h
end

/-- A builtin that takes no argument is a primitive. -/
theorem builtin_primitive {name : String} {s : TypeSymbol} (h : Analyzer.builtinTypes.get? name = some s)
    (hne : name ∉ ["Option", "Result", "Unit"]) : ∃ p, symbolType name s.kind = .primitive p := by
  have hall : ∀ n ∈ primitiveNames, n ∉ ["Option", "Result", "Unit"] → (primitiveType n).isSome = true := by decide
  rcases List.mem_append.mp (OrdMap.mem_of_get?_ofList h) with hmem | hmem
  · obtain ⟨n, hn, heq⟩ := List.mem_map.mp hmem
    cases heq
    obtain ⟨p, hp⟩ := Option.isSome_iff_exists.mp (hall name hn hne)
    refine ⟨p, ?_⟩
    simp only [symbolType, hp]
  · simp only [List.mem_cons, List.not_mem_nil, or_false, Prod.mk.injEq] at hmem
    rcases hmem with ⟨rfl, -⟩ | ⟨rfl, -⟩
    · exact absurd (by simp) hne
    · exact absurd (by simp) hne

theorem named_builtin {a : Analyzer} {ps : List (String × Item)} (ha : Symbols a ps) {name : String} {s : TypeSymbol}
    (h : Analyzer.builtinTypes.get? name = some s) : a.named name = symbolType name s.kind := by
  unfold Analyzer.named
  rw [(ha.types name s).mpr (.inl h)]

theorem sameMeaning_symbolType {f g : String → Option QualifiedDefId} {name : String} {item item' : Item}
    {kind kind' : TypeSymbolKind} (hkind : item.typeKind = some kind) (hkind' : item'.typeKind = some kind') :
    sameMeaning f g (symbolType name kind) (symbolType name kind') = true ↔ kind = kind' ∧ sameName f g name name = true := by
  have hnominal : ∀ {i : Item} {k : TypeSymbolKind}, i.typeKind = some k → k = .struct ∨ k = .enum ∨ k = .state := by
    intro i k hk
    cases i <;> cases hk <;> simp
  rcases hnominal hkind with rfl | rfl | rfl <;> rcases hnominal hkind' with rfl | rfl | rfl <;>
    simp [symbolType, sameMeaning]

/-! ## Imported signatures -/

/-- What the analysis of a file has entered once its declarations are resolved; the files are in order. -/
def tablesOf (sources : List ModuleSource) (m : ResolvedModule) (source : ModuleSource) : Analyzer :=
  (declared source.file source.ast (importsFor (moduleItems sources (linkModules sources).modules) m source)).value

/-- A file of `m` imports, as `localName`, an item of a file of `t`. -/
structure Imports (sources : List ModuleSource) (m : ResolvedModule) (source : ModuleSource) (localName : String)
    (t : ResolvedModule) (home : ModuleSource) (item : Item) : Prop where
  source_mem : source ∈ sources
  home_mem : home ∈ sources
  importer : moduleOf (linkModules sources).modules source = some m
  definer : moduleOf (linkModules sources).modules home = some t
  item_mem : item ∈ home.ast.items
  signature : item.hasSignature = true
  bound : ∃ i, m.imports.get? localName = some i ∧ (t.definitions.get? item.name).map (·.id) = some i.definition

/-- The importing file has entered the imported item with types that mean what they mean at home. -/
def SameSignature (sources : List ModuleSource) (m : ResolvedModule) (source : ModuleSource) (localName : String)
    (t : ResolvedModule) (home : ModuleSource) (item : Item) : Prop :=
  ∃ u v, (tablesOf sources m source).signatureOf localName item = some u ∧
    (tablesOf sources t home).signatureOf item.name item = some v ∧
    List.Forall₂ (fun x y => sameMeaning m.binding t.binding x y = true) u v

/-- Two modules bind the names of an item's signature to the same definitions. -/
def SameBindings (m t : ResolvedModule) (item : Item) : Prop :=
  ∀ ty ∈ keptTypes item, ∀ name ∈ ty.names, Analyzer.builtinTypes.contains name = false → m.binding name = t.binding name

section
variable {sources : List ModuleSource} {m t : ResolvedModule} {source home : ModuleSource} {localName : String} {item : Item}

/-- A name of two files reads the same in both exactly where it is a builtin or bound to one definition. -/
theorem sameMeaning_named {ids : OrdMap String Nat} {modules : ModuleMap} (hgraph : Graph ids sources modules)
    (hfiles : (sources.map (·.file)).Nodup) {k k' : Nat} (hm : modules.get? k = some m) (ht : modules.get? k' = some t)
    (hs : source ∈ sources) (hh : home ∈ sources) (hk : placed ids k source = true) (hk' : placed ids k' home = true)
    {a a' : Analyzer} (ha : Symbols a (own source.ast ++ importsFor (moduleItems sources modules) m source))
    (ha' : Symbols a' (own home.ast ++ importsFor (moduleItems sources modules) t home)) {name : String}
    (hne : name ∉ ["Option", "Result", "Unit"]) (hknown : ∃ symbol, a.symbols.types.get? name = some symbol)
    (hknown' : ∃ symbol, a'.symbols.types.get? name = some symbol) :
    sameMeaning m.binding t.binding (a.named name) (a'.named name) = true ↔
      (Analyzer.builtinTypes.contains name = false → m.binding name = t.binding name) := by
  cases hbuiltin : Analyzer.builtinTypes.get? name with
  | some s =>
    obtain ⟨p, hp⟩ := builtin_primitive hbuiltin hne
    rw [named_builtin ha hbuiltin, named_builtin ha' hbuiltin, hp, OrdMap.contains, hbuiltin]
    simp [sameMeaning]
  | none =>
    have hcontains : Analyzer.builtinTypes.contains name = false := by rw [OrdMap.contains, hbuiltin]; rfl
    obtain ⟨symbol, hsymbol⟩ := hknown
    obtain ⟨symbol', hsymbol'⟩ := hknown'
    obtain ⟨d, i, kind, hd, hi, hkind, heq⟩ := named_of_known hgraph hfiles hm hs hk ha hcontains hsymbol
    obtain ⟨d', i', kind', hd', hi', hkind', heq'⟩ := named_of_known hgraph hfiles ht hh hk' ha' hcontains hsymbol'
    rw [heq, heq', sameMeaning_symbolType hkind hkind', sameName, hd, hd']
    simp only [Option.isSome_some, Bool.true_and, decide_eq_true_eq, Option.some.injEq, hcontains, forall_const]
    refine ⟨And.right, fun hdd => ⟨?_, hdd⟩⟩
    rw [← hdd, hi] at hi'
    cases hi'
    exact Option.some.inj (hkind.symm.trans hkind')

theorem sortDiagnostics_eq_nil {diagnostics : List Diagnostic} (h : sortDiagnostics diagnostics = []) : diagnostics = [] := by
  have hperm := List.perm_insertionSort (fun a b => diagnosticKey a ≤ diagnosticKey b) diagnostics
  rw [show diagnostics.insertionSort _ = [] from h] at hperm
  exact List.nil_perm.mp hperm

/-- The analysis under the name of a file. -/
theorem analyzeSourceBodies_get {sources : List ModuleSource} (hfiles : (sources.map (·.file)).Nodup) (modules : ModuleMap)
    {source : ModuleSource} (hs : source ∈ sources) : (analyzeSourceBodies sources modules).get? source.file =
      (moduleOf modules source).map fun m =>
        analyzeWithImports source.file source.ast (importsFor (moduleItems sources modules) m source) := by
  have hkey : ∀ source e, ((moduleOf modules source).map fun m => (source.file, analyzeWithImports source.file source.ast
      (importsFor (moduleItems sources modules) m source))) = some e → e.1 = source.file := by
    intro source e he
    obtain ⟨_, -, rfl⟩ := Option.map_eq_some_iff.mp he
    rfl
  cases hm : moduleOf modules source with
  | none =>
    refine OrdMap.get?_ofList_eq_none fun hmem => ?_
    obtain ⟨e, he, hfile⟩ := List.mem_map.mp hmem
    obtain ⟨other, hother, he⟩ := List.mem_filterMap.mp he
    rw [hkey other e he] at hfile
    obtain rfl := List.inj_on_of_nodup_map hfiles hother hs hfile
    rw [hm] at he
    cases he
  | some m =>
    refine OrdMap.get?_ofList (OrdMap.nodup_map_filterMap (·.file) hkey hfiles) ?_
    exact List.mem_filterMap.mpr ⟨source, hs, by rw [hm]; rfl⟩

/-- What a set of files without diagnostics has: a sound graph, and a clean analysis of every file. -/
theorem analyzeModules_clean (hfiles : (sources.map (·.file)).Nodup) (h : (analyzeModules sources).diagnostics = []) :
    Graph (moduleIds (byFile sources)) (byFile sources) (linkModules (byFile sources)).modules ∧
      ((byFile sources).map (·.file)).Nodup ∧ ∀ source ∈ byFile sources, ∀ m,
        moduleOf (linkModules (byFile sources)).modules source = some m → Clean (declared source.file source.ast
          (importsFor (moduleItems (byFile sources) (linkModules (byFile sources)).modules) m source)) := by
  have hperm : (byFile sources).Perm sources := List.perm_insertionSort _ _
  have hnodup : ((byFile sources).map (·.file)).Nodup := (hperm.map _).nodup_iff.mpr hfiles
  obtain ⟨hlink, hbodies⟩ := List.append_eq_nil_iff.mp (sortDiagnostics_eq_nil h)
  refine ⟨linkModules_graph (List.append_eq_nil_iff.mp hlink).1, hnodup, fun source hs m hm => ?_⟩
  have hget : (analyzeSourceBodies (byFile sources) (linkModules (byFile sources)).modules).get? source.file =
      some (analyzeWithImports source.file source.ast
        (importsFor (moduleItems (byFile sources) (linkModules (byFile sources)).modules) m source)) := by
    rw [analyzeSourceBodies_get hnodup _ hs, hm]
    rfl
  have hdiagnostics := List.flatMap_eq_nil_iff.mp hbodies _
    (List.mem_map.mpr ⟨_, OrdMap.get?_eq_some_iff.mp hget, rfl⟩)
  exact (clean_bind.mp (AstLower.clean_analyzed hdiagnostics)).1

/-- **The types of an imported signature mean what they mean at home exactly where both modules bind their names alike.** -/
theorem imported_signature_iff (hfiles : (sources.map (·.file)).Nodup) (hclean : (analyzeModules sources).diagnostics = [])
    (himports : Imports (byFile sources) m source localName t home item) :
    SameSignature (byFile sources) m source localName t home item ↔ SameBindings m t item := by
  obtain ⟨hgraph, hnodup, hdeclared⟩ := analyzeModules_clean hfiles hclean
  obtain ⟨hs, hh, hm, ht, hitem, hsignature, i, hi, hdefinition⟩ := himports
  obtain ⟨k, hk, hplaced⟩ := moduleOf_get hgraph hm
  obtain ⟨k', hk', hplaced'⟩ := moduleOf_get hgraph ht
  obtain ⟨ha, htables⟩ := declared_tables (hdeclared source hs m hm)
  obtain ⟨ha', htables'⟩ := declared_tables (hdeclared home hh t ht)
  -- the import is among what the importing file sees
  have hseen : (localName, item) ∈ importsFor (moduleItems (byFile sources) (linkModules (byFile sources)).modules) m source := by
    obtain ⟨d, hd, hget⟩ := binding_own hgraph hnodup hk' hh hplaced' hitem
    have hid : d.id = i.definition := by simpa [hd] using hdefinition
    obtain ⟨_, _, _, _, _, symbol, target, m', d', -, -, -, -, -, -, hi'⟩ := (hgraph.imports k m hk localName i).mp hi
    refine List.mem_append_left _ (List.mem_filterMap.mpr ⟨i, List.mem_map.mpr ⟨_, OrdMap.get?_eq_some_iff.mp hi, rfl⟩, ?_⟩)
    rw [← hid, hget, hi']
    rfl
  have hrecorded := htables.recorded _ (List.mem_append_left (own source.ast) hseen)
  have hrecorded' := htables'.recorded (item.name, item) (List.mem_append_right _ (List.mem_map_of_mem hitem))
  have hentry := hrecorded.entry hsignature
  have hentry' := hrecorded'.entry hsignature
  have hread : ∀ ty ∈ keptTypes item, sameMeaning m.binding t.binding ((tablesOf (byFile sources) m source).read ty)
      ((tablesOf (byFile sources) t home).read ty) = true ↔
        ∀ name ∈ ty.names, Analyzer.builtinTypes.contains name = false → m.binding name = t.binding name := by
    intro ty hty
    have hc := hrecorded.clean ty (keptTypes_subset item hty)
    have hc' := hrecorded'.clean ty (keptTypes_subset item hty)
    obtain ⟨hform, hknows⟩ := (clean_resolveType ty).mp hc
    obtain ⟨-, hknows'⟩ := (clean_resolveType ty).mp hc'
    rw [tablesOf, tablesOf, read_eq ty hc, read_eq ty hc', sameMeaning_readWith ty hform]
    exact forall₂_congr fun name hname => sameMeaning_named hgraph hnodup hk hk' hs hh hplaced hplaced' ha ha'
      (names_ne ty hname) (hknows name hname) (hknows' name hname)
  have hsame : SameSignature (byFile sources) m source localName t home item ↔
      List.Forall₂ (fun x y => sameMeaning m.binding t.binding x y = true)
        (item.signature (tablesOf (byFile sources) m source).read) (item.signature (tablesOf (byFile sources) t home).read) := by
    constructor
    · rintro ⟨u, v, hu, hv, huv⟩
      cases hu.symm.trans hentry
      cases hv.symm.trans hentry'
      exact huv
    · exact fun h => ⟨_, _, hentry, hentry', h⟩
  rw [hsame, signature_forall₂_iff (by simp [sameMeaning])]
  exact forall₂_congr hread

end

/-- `pub fn f(s: S) -> I32`. -/
def typedFunction : Item := .function
  { isPublic := true, asynchronous := false, name := "f", parameters := [⟨"s", .path ["S"] [] default, default⟩]
    returnType := some (.path ["I32"] [] default), effects := none
    body := .mk [.expression (.mk (.literal (.integer 1)) default) default] default, span := default }

/-- Module `a`, with the type of its function. -/
def typedHome (isPublic : Bool) : ModuleSource :=
  ⟨"a.syl", ⟨some ⟨["a"], default⟩, [], [.struct ⟨isPublic, "S", [⟨false, "x", .path ["I32"] [] default, default⟩], default⟩,
    typedFunction], default⟩⟩

/-- Module `b`, with `use a::f`. -/
def importer (others : List UseNode) (items : List Item) : ModuleSource :=
  ⟨"b.syl", ⟨some ⟨["b"], default⟩, ⟨["a", "f"], none, default⟩ :: others, items, default⟩⟩

/-- With the type imported too, the signature means what it means at home. -/
theorem importedType_keeps : let source := importer [⟨["a", "S"], none, default⟩] []
    ∃ m t, SameSignature (byFile [typedHome true, source]) m source "f" t (typedHome true) typedFunction := by
  intro source
  have hmodules : ∃ m ∈ moduleOf (linkModules (byFile [typedHome true, source])).modules source,
      ∃ t ∈ moduleOf (linkModules (byFile [typedHome true, source])).modules (typedHome true),
        (∃ i ∈ m.imports.get? "f", (t.definitions.get? "f").map (·.id) = some i.definition) ∧
          m.binding "S" = t.binding "S" := by decide +kernel
  obtain ⟨m, hm, t, ht, hbound, hbinding⟩ := hmodules
  refine ⟨m, t, (imported_signature_iff (by decide +kernel) (by decide +kernel)
    ⟨?_, ?_, hm, ht, List.mem_cons_of_mem _ List.mem_cons_self, rfl, hbound⟩).mpr ?_⟩
  · exact (List.mem_insertionSort _).mpr (List.mem_cons_of_mem _ List.mem_cons_self)
  · exact (List.mem_insertionSort _).mpr List.mem_cons_self
  · have hnames : ∀ ty ∈ keptTypes typedFunction, ∀ name ∈ ty.names, Analyzer.builtinTypes.contains name = false →
        name = "S" := by decide +kernel
    intro ty hty name hname hbuiltin
    rw [hnames ty hty name hname hbuiltin]
    exact hbinding

/-- A private type of the home module and another of its name beside the import: the parameter's type is the other one. -/
theorem privateType_changes :
    let source := importer [] [.struct ⟨false, "S", [⟨false, "y", .path ["Bool"] [] default, default⟩], default⟩]
    (analyzeModules [typedHome false, source]).diagnostics = [] ∧
      ∃ m t, Imports (byFile [typedHome false, source]) m source "f" t (typedHome false) typedFunction ∧
        ¬ SameSignature (byFile [typedHome false, source]) m source "f" t (typedHome false) typedFunction := by
  intro source
  have hmodules : ∃ m ∈ moduleOf (linkModules (byFile [typedHome false, source])).modules source,
      ∃ t ∈ moduleOf (linkModules (byFile [typedHome false, source])).modules (typedHome false),
        (∃ i ∈ m.imports.get? "f", (t.definitions.get? "f").map (·.id) = some i.definition) ∧
          m.binding "S" ≠ t.binding "S" ∧
          (tablesOf (byFile [typedHome false, source]) m source).signatureOf "f" typedFunction =
            some [.struct "S", .primitive (.signed "I32")] ∧
          (tablesOf (byFile [typedHome false, source]) t (typedHome false)).signatureOf "f" typedFunction =
            some [.struct "S", .primitive (.signed "I32")] := by decide +kernel
  obtain ⟨m, hm, t, ht, hbound, hbinding, hu, hv⟩ := hmodules
  refine ⟨by decide +kernel, m, t,
    ⟨?_, ?_, hm, ht, List.mem_cons_of_mem _ List.mem_cons_self, rfl, hbound⟩, ?_⟩
  · exact (List.mem_insertionSort _).mpr (List.mem_cons_of_mem _ List.mem_cons_self)
  · exact (List.mem_insertionSort _).mpr List.mem_cons_self
  · rintro ⟨u, v, hu', hv', huv⟩
    cases hu.symm.trans hu'
    cases hv.symm.trans hv'
    simp only [List.forall₂_cons, sameMeaning, sameName, Bool.and_eq_true, decide_eq_true_eq] at huv
    exact hbinding huv.1.2

end Modules
end Syllog
