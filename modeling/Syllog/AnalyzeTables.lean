import Syllog.AnalyzeTypes
/-!
# AnalyzeTables — what the tables of a file without diagnostics hold

Types and values are two namespaces; within one no name is declared twice.  Every declared or imported item then has its
symbol, and the table entry of its name is its own signature, its types resolved among the symbols of the file.
-/
namespace Syllog

namespace Ast.Item

open Hir Semantic

def typeKind : Item → Option TypeSymbolKind
  | struct _ => some .struct
  | enum _   => some .enum
  | state _  => some .state
  | _        => none

def valueKind : Item → Option ValueSymbolKind
  | function _    => some .function
  | agent _       => some .agent
  | pipeline _    => some .pipeline
  | safetyBound _ => some .safetyBound
  | _             => none

/-- A function or a pipeline: what a body may refer to by name. -/
def isCallable : Item → Bool
  | function _ => true
  | pipeline _ => true
  | _          => false

/-- The types written in the signature of an item. -/
def signatureTypes : Item → List TypeNode
  | struct node   => node.fields.map (·.ty)
  | enum node     => node.variants.flatMap (·.fields)
  | function node => node.parameters.map (·.ty) ++ node.returnType.toList
  | state node    => node.fields.map (·.ty)
  | agent node    =>
    ((property node.fields "input").bind (·.ty)).toList ++ ((property node.fields "output").bind (·.ty)).toList
  | pipeline node => node.parameters.map (·.ty) ++ node.returnType.toList
  | safetyBound _ => []

def hasSignature : Item → Bool
  | safetyBound _ => false
  | _             => true

/-- The signature of an item under a reading of its types; of fields with one name the last counts. -/
def signature (read : TypeNode → ResolvedType) : Item → List ResolvedType
  | struct node   => (OrdMap.ofList ((node.fields.map (·.name)).zip (node.fields.map fun field => read field.ty))).values
  | enum node     => node.variants.flatMap fun variant => variant.fields.map read
  | function node => node.parameters.map (fun parameter => read parameter.ty) ++ [(node.returnType.map read).getD .unit]
  | state node    => node.fields.map fun field => read field.ty
  | agent node    =>
    (((property node.fields "input").bind (·.ty)).map read).toList ++
      (((property node.fields "output").bind (·.ty)).map read).toList
  | pipeline node => node.parameters.map (fun parameter => read parameter.ty) ++ [(node.returnType.map read).getD .unit]
  | safetyBound _ => []

end Ast.Item

namespace Semantic

open Hir Ast

/-- The namespace and the name an item is declared under. -/
def key (p : String × Item) : Bool × String := (p.2.typeKind.isSome, p.1)

/-- The signature the tables hold for a name, where an item of this kind is looked for. -/
def Analyzer.signatureOf (a : Analyzer) (name : String) : Item → Option (List ResolvedType)
  | .struct _      => (a.structs.get? name).map (·.values)
  | .enum _        => (a.enums.get? name).map fun variants => variants.flatMap (·.2)
  | .function _    => (a.functions.get? name).map fun signature => signature.parameters ++ [signature.result]
  | .state _       => a.states.get? name
  | .agent _       => (a.agents.get? name).map fun contract => contract.input.toList ++ contract.output.toList
  | .pipeline _    => (a.functions.get? name).map fun signature => signature.parameters ++ [signature.result]
  | .safetyBound _ => none

section
variable {a a' : Analyzer} {name : String} {item : Item}

/-! ## Symbols -/

/-- An item enters one symbol, under its kind. -/
theorem insertSymbol_type {kind : TypeSymbolKind} (hkind : item.typeKind = some kind) :
    a.insertSymbol name item = a.insertType name kind item.span := by
  cases item <;> cases hkind <;> rfl

theorem insertSymbol_value {kind : ValueSymbolKind} (hkind : item.valueKind = some kind) :
    a.insertSymbol name item = a.insertValue name kind item.span := by
  cases item <;> cases hkind <;> rfl

theorem kind_cases (item : Item) : (∃ kind, item.typeKind = some kind ∧ item.valueKind = none) ∨
    ∃ kind, item.valueKind = some kind ∧ item.typeKind = none := by
  cases item with
  | struct node => exact .inl ⟨_, rfl, rfl⟩
  | enum node => exact .inl ⟨_, rfl, rfl⟩
  | state node => exact .inl ⟨_, rfl, rfl⟩
  | function node => exact .inr ⟨_, rfl, rfl⟩
  | agent node => exact .inr ⟨_, rfl, rfl⟩
  | pipeline node => exact .inr ⟨_, rfl, rfl⟩
  | safetyBound node => exact .inr ⟨_, rfl, rfl⟩

theorem clean_insertType {kind : TypeSymbolKind} {span : Span} (h : Clean (a.insertType name kind span)) :
    a.symbols.types.contains name = false ∧ (a.insertType name kind span).value =
      { a with symbols := { a.symbols with types := a.symbols.types.insert name ⟨name, kind, span⟩ } } := by
  unfold Analyzer.insertType at h ⊢
  split_ifs at h ⊢ with hcontains
  · simp at h
  · exact ⟨by simpa using hcontains, rfl⟩

theorem clean_insertValue {kind : ValueSymbolKind} {span : Span} (h : Clean (a.insertValue name kind span)) :
    a.symbols.values.contains name = false ∧ (a.insertValue name kind span).value =
      { a with symbols := { a.symbols with values := a.symbols.values.insert name ⟨name, kind, span⟩ } } := by
  unfold Analyzer.insertValue at h ⊢
  split_ifs at h ⊢ with hcontains
  · simp at h
  · exact ⟨by simpa using hcontains, rfl⟩

def typeSymbol (p : String × Item) : Option TypeSymbol := p.2.typeKind.map fun kind => ⟨p.1, kind, p.2.span⟩

def valueSymbol (p : String × Item) : Option ValueSymbol := p.2.valueKind.map fun kind => ⟨p.1, kind, p.2.span⟩

/-- A namespace holds what it began with and the symbols of `ps`. -/
def Holds {σ : Type} (first m : OrdMap String σ) (symbol : String × Item → Option σ) (ps : List (String × Item)) : Prop :=
  ∀ name s, m.get? name = some s ↔ first.get? name = some s ∨ ∃ p ∈ ps, p.1 = name ∧ symbol p = some s

theorem Holds.insert {σ : Type} {first m : OrdMap String σ} {symbol : String × Item → Option σ} {ps : List (String × Item)}
    (h : Holds first m symbol ps) {s : σ} (hfree : m.contains name = false) (hsymbol : symbol (name, item) = some s) :
    Holds first (m.insert name s) symbol (ps ++ [(name, item)]) := by
  have hnone : m.get? name = none := by simpa [OrdMap.contains] using hfree
  intro n s'
  rw [OrdMap.get?_insert]
  split_ifs with heq
  · subst heq
    constructor
    · rintro ⟨⟩
      exact .inr ⟨(name, item), List.mem_append_right _ List.mem_cons_self, rfl, hsymbol⟩
    · intro hs
      have hold : ∀ t, ¬ (first.get? name = some t ∨ ∃ p ∈ ps, p.1 = name ∧ symbol p = some t) := fun t ht => by
        rw [(h name t).mpr ht] at hnone
        cases hnone
      rcases hs with hs | ⟨p, hp, hname, hs⟩
      · exact absurd (.inl hs) (hold s')
      · rcases List.mem_append.mp hp with hp | hp
        · exact absurd (.inr ⟨p, hp, hname, hs⟩) (hold s')
        · rw [List.mem_singleton] at hp
          rw [hp, hsymbol] at hs
          exact hs
  · rw [h n s']
    constructor
    · rintro (hs | ⟨p, hp, hs⟩)
      · exact .inl hs
      · exact .inr ⟨p, List.mem_append_left _ hp, hs⟩
    · rintro (hs | ⟨p, hp, hname, hs⟩)
      · exact .inl hs
      · rcases List.mem_append.mp hp with hp | hp
        · exact .inr ⟨p, hp, hname, hs⟩
        · rw [List.mem_singleton] at hp
          rw [hp] at hname
          exact absurd hname heq

theorem Holds.skip {σ : Type} {first m : OrdMap String σ} {symbol : String × Item → Option σ} {ps : List (String × Item)}
    (h : Holds first m symbol ps) (hsymbol : symbol (name, item) = none) : Holds first m symbol (ps ++ [(name, item)]) := by
  intro n s
  rw [h n s]
  constructor
  · rintro (hs | ⟨p, hp, hs⟩)
    · exact .inl hs
    · exact .inr ⟨p, List.mem_append_left _ hp, hs⟩
  · rintro (hs | ⟨p, hp, hname, hs⟩)
    · exact .inl hs
    · rcases List.mem_append.mp hp with hp | hp
      · exact .inr ⟨p, hp, hname, hs⟩
      · rw [List.mem_singleton.mp hp, hsymbol] at hs
        cases hs

/-- A name that is free in a namespace is none of those declared in it. -/
theorem Holds.fresh {σ : Type} {first m : OrdMap String σ} {symbol : String × Item → Option σ} {ps : List (String × Item)}
    (h : Holds first m symbol ps) (hfree : m.contains name = false) {p : String × Item} (hp : p ∈ ps) (hname : p.1 = name) :
    symbol p = none := by
  cases hs : symbol p with
  | none => rfl
  | some s =>
    have hget := (h name s).mpr (.inr ⟨p, hp, hname, hs⟩)
    rw [OrdMap.contains, hget] at hfree
    cases hfree

/-- The symbols of a file are the builtin ones and those of `ps`, one for each. -/
structure Symbols (a : Analyzer) (ps : List (String × Item)) : Prop where
  nodup : (ps.map key).Nodup
  types : Holds Analyzer.builtinTypes a.symbols.types typeSymbol ps
  values : Holds OrdMap.empty a.symbols.values valueSymbol ps

theorem Symbols.of_eq {ps : List (String × Item)} (h : Symbols a ps) (heq : a'.symbols = a.symbols) : Symbols a' ps :=
  ⟨h.nodup, by rw [heq]; exact h.types, by rw [heq]; exact h.values⟩

theorem symbols_new (file : String) : Symbols (Analyzer.new file) [] :=
  ⟨List.nodup_nil, fun name s => by simp [Analyzer.new], fun name s => by simp [Analyzer.new]⟩

theorem nodup_snoc {ps : List (String × Item)} (h : (ps.map key).Nodup) (hnew : ∀ p ∈ ps, key p ≠ key (name, item)) :
    ((ps ++ [(name, item)]).map key).Nodup := by
  rw [List.map_append, List.nodup_append]
  refine ⟨h, List.nodup_singleton _, ?_⟩
  rintro k hk k' hk' rfl
  obtain ⟨p, hp, rfl⟩ := List.mem_map.mp hk
  exact hnew p hp (List.mem_singleton.mp hk')

/-- Entering an item without a diagnostic adds its symbol. -/
theorem Symbols.insert {ps : List (String × Item)} (h : Symbols a ps) (hclean : Clean (a.insertSymbol name item)) :
    Symbols (a.insertSymbol name item).value (ps ++ [(name, item)]) := by
  rcases kind_cases item with ⟨kind, htype, hvalue⟩ | ⟨kind, hvalue, htype⟩
  · rw [insertSymbol_type htype] at hclean ⊢
    obtain ⟨hfree, hval⟩ := clean_insertType hclean
    rw [hval]
    refine ⟨nodup_snoc h.nodup fun p hp hkey => ?_, h.types.insert hfree (by simp [typeSymbol, htype]),
      h.values.skip (by simp [valueSymbol, hvalue])⟩
    rw [key, key, Prod.mk.injEq, htype] at hkey
    have hnone := h.types.fresh hfree hp hkey.2
    obtain ⟨kind', hkind'⟩ := Option.isSome_iff_exists.mp hkey.1
    simp [typeSymbol, hkind'] at hnone
  · rw [insertSymbol_value hvalue] at hclean ⊢
    obtain ⟨hfree, hval⟩ := clean_insertValue hclean
    rw [hval]
    refine ⟨nodup_snoc h.nodup fun p hp hkey => ?_, h.types.skip (by simp [typeSymbol, htype]),
      h.values.insert hfree (by simp [valueSymbol, hvalue])⟩
    rw [key, key, Prod.mk.injEq, htype] at hkey
    have hnone := h.values.fresh hfree hp hkey.2
    rcases kind_cases p.2 with ⟨kind', hkind', -⟩ | ⟨kind', hkind', -⟩
    · rw [hkind'] at hkey
      cases hkey.1
    · simp [valueSymbol, hkind'] at hnone

/-! ## Signatures -/

theorem signature_congr {f g : TypeNode → ResolvedType} {item : Item} (h : ∀ t ∈ item.signatureTypes, f t = g t) :
    item.signature f = item.signature g := by
  cases item with
  | struct node =>
    have hfields : (node.fields.map fun field => f field.ty) = node.fields.map fun field => g field.ty :=
      List.map_congr_left fun field hf => h _ (List.mem_map_of_mem hf)
    simp only [Item.signature, hfields]
  | enum node =>
    have hvariants : (node.variants.flatMap fun variant => variant.fields.map f) =
        node.variants.flatMap fun variant => variant.fields.map g :=
      List.flatMap_congr fun variant hv => List.map_congr_left fun t ht => h t (List.mem_flatMap.mpr ⟨variant, hv, ht⟩)
    simp only [Item.signature, hvariants]
  | function node =>
    have hparameters : (node.parameters.map fun parameter => f parameter.ty) = node.parameters.map fun parameter => g parameter.ty :=
      List.map_congr_left fun parameter hp => h _ (List.mem_append_left _ (List.mem_map_of_mem hp))
    have hresult : node.returnType.map f = node.returnType.map g :=
      Option.map_congr fun t ht => h t (List.mem_append_right _ (Option.mem_toList.mpr ht))
    simp only [Item.signature, hparameters, hresult]
  | state node =>
    have hfields : (node.fields.map fun field => f field.ty) = node.fields.map fun field => g field.ty :=
      List.map_congr_left fun field hf => h _ (List.mem_map_of_mem hf)
    simp only [Item.signature, hfields]
  | agent node =>
    have hinput : ((property node.fields "input").bind (·.ty)).map f = ((property node.fields "input").bind (·.ty)).map g :=
      Option.map_congr fun t ht => h t (List.mem_append_left _ (Option.mem_toList.mpr ht))
    have houtput : ((property node.fields "output").bind (·.ty)).map f = ((property node.fields "output").bind (·.ty)).map g :=
      Option.map_congr fun t ht => h t (List.mem_append_right _ (Option.mem_toList.mpr ht))
    simp only [Item.signature, hinput, houtput]
  | pipeline node =>
    have hparameters : (node.parameters.map fun parameter => f parameter.ty) = node.parameters.map fun parameter => g parameter.ty :=
      List.map_congr_left fun parameter hp => h _ (List.mem_append_left _ (List.mem_map_of_mem hp))
    have hresult : node.returnType.map f = node.returnType.map g :=
      Option.map_congr fun t ht => h t (List.mem_append_right _ (Option.mem_toList.mpr ht))
    simp only [Item.signature, hparameters, hresult]
  | safetyBound node => rfl

theorem resolveVariants_value : ∀ {variants : List EnumVariant},
    (a.resolveVariants variants).value = variants.map fun variant => (variant.name, variant.fields.map a.read)
  | [] => rfl
  | variant :: variants => by simp [Analyzer.resolveVariants, resolveVariants_value, resolveTypes_value]

theorem clean_resolveVariants : ∀ {variants : List EnumVariant}, Clean (a.resolveVariants variants) →
    ∀ t ∈ variants.flatMap (·.fields), Clean (resolveType a t)
  | [], _, t, ht => by cases ht
  | variant :: variants, h, t, ht => by
    simp only [Analyzer.resolveVariants, clean_bind] at h
    rcases List.mem_append.mp ht with ht | ht
    · exact clean_resolveTypes.mp h.1 t ht
    · exact clean_resolveVariants h.2.1 t ht

theorem clean_resolveSignature {parameters : List Parameter} {returnType : Option TypeNode}
    (h : Clean (a.resolveSignature parameters returnType)) :
    ∀ t ∈ parameters.map (·.ty) ++ returnType.toList, Clean (resolveType a t) := by
  simp only [Analyzer.resolveSignature, clean_bind] at h
  intro t ht
  rcases List.mem_append.mp ht with ht | ht
  · exact clean_resolveTypes.mp h.1 t ht
  · exact clean_resolveOption.mp h.2.1 t (Option.mem_toList.mp ht)

theorem resolveSignature_value {parameters : List Parameter} {returnType : Option TypeNode} :
    (a.resolveSignature parameters returnType).value =
      ⟨parameters.map fun parameter => a.read parameter.ty, (returnType.map a.read).getD .unit⟩ := by
  simp only [Analyzer.resolveSignature, Logged.value_bind, Logged.value_pure, resolveTypes_value, resolveOption_value,
    List.map_map, Function.comp_def]

theorem clean_resolveContract {fields : List Property} (h : Clean (a.resolveContract fields)) :
    ∀ t ∈ ((property fields "input").bind (·.ty)).toList ++ ((property fields "output").bind (·.ty)).toList,
      Clean (resolveType a t) := by
  simp only [Analyzer.resolveContract, clean_bind] at h
  intro t ht
  rcases List.mem_append.mp ht with ht | ht
  · exact clean_resolveOption.mp h.1 t (Option.mem_toList.mp ht)
  · exact clean_resolveOption.mp h.2.1 t (Option.mem_toList.mp ht)

theorem record_symbols : (a.record name item).value.symbols = a.symbols := by cases item <;> rfl

theorem clean_record (h : Clean (a.record name item)) : ∀ t ∈ item.signatureTypes, Clean (resolveType a t) := by
  cases item with
  | struct node =>
    simp only [Analyzer.record, Analyzer.resolveFields, clean_bind] at h
    exact clean_resolveTypes.mp h.1.1
  | enum node =>
    simp only [Analyzer.record, clean_bind] at h
    exact clean_resolveVariants h.1
  | function node =>
    simp only [Analyzer.record, clean_bind] at h
    exact clean_resolveSignature h.1
  | state node =>
    simp only [Analyzer.record, clean_bind] at h
    exact clean_resolveTypes.mp h.1
  | agent node =>
    simp only [Analyzer.record, clean_bind] at h
    exact clean_resolveContract h.1
  | pipeline node =>
    simp only [Analyzer.record, clean_bind] at h
    exact clean_resolveSignature h.1
  | safetyBound node =>
    intro t ht
    cases ht

/-- The entry of an item is its signature, read among the symbols of the file. -/
theorem record_entry (hitem : item.hasSignature = true) :
    (a.record name item).value.signatureOf name item = some (item.signature a.read) := by
  cases item with
  | struct node =>
    simp [Analyzer.record, Analyzer.resolveFields, Analyzer.signatureOf, Item.signature, resolveTypes_value, Function.comp_def]
  | enum node => simp [Analyzer.record, Analyzer.signatureOf, Item.signature, resolveVariants_value, List.flatMap_map]
  | function node => simp [Analyzer.record, Analyzer.signatureOf, Item.signature, resolveSignature_value]
  | state node => simp [Analyzer.record, Analyzer.signatureOf, Item.signature, resolveTypes_value, Function.comp_def]
  | agent node =>
    simp [Analyzer.record, Analyzer.signatureOf, Item.signature, Analyzer.resolveContract, resolveOption_value]
  | pipeline node => simp [Analyzer.record, Analyzer.signatureOf, Item.signature, resolveSignature_value]
  | safetyBound node => cases hitem

/-- Only the entries of that name in that namespace change. -/
theorem record_frame {name' : String} {item' : Item} (hkey : key (name', item') ≠ key (name, item)) :
    (a.record name item).value.signatureOf name' item' = a.signatureOf name' item' := by
  have hname : ∀ {α : Type} (m : OrdMap String α) (v : α), item'.typeKind.isSome = item.typeKind.isSome →
      (m.insert name v).get? name' = m.get? name' := by
    intro α m v hkind
    rw [OrdMap.get?_insert, if_neg]
    rintro rfl
    exact hkey (by rw [key, key, hkind])
  cases item <;> cases item' <;> first
    | rfl
    | simp only [Analyzer.record, Analyzer.signatureOf, Logged.value_bind, Logged.value_pure]
      rw [hname _ _ rfl]

/-- Functions and pipelines have a table of their own. -/
theorem record_frame_callable {name' : String} {item' : Item} (hcallable : item'.isCallable ≠ item.isCallable) :
    (a.record name item).value.signatureOf name' item' = a.signatureOf name' item' := by
  cases item <;> cases item' <;> first | rfl | exact absurd rfl hcallable

/-! ## The tables -/

/-- The types of an item's signature resolve, and its entry is that signature. -/
structure Recorded (a : Analyzer) (p : String × Item) : Prop where
  clean : ∀ t ∈ p.2.signatureTypes, Clean (resolveType a t)
  entry : p.2.hasSignature = true → a.signatureOf p.1 p.2 = some (p.2.signature a.read)

/-- The tables hold the signatures of `done` and nothing else. -/
structure Tables (a : Analyzer) (done : List (String × Item)) : Prop where
  recorded : ∀ p ∈ done, Recorded a p
  only : ∀ name item, (a.signatureOf name item).isSome = true →
    ∃ p ∈ done, key p = key (name, item) ∧ p.2.isCallable = item.isCallable

theorem tables_new (file : String) : Tables (Analyzer.new file) [] := by
  refine ⟨fun p hp => (List.not_mem_nil hp).elim, fun name item h => ?_⟩
  cases item <;> cases h

theorem Recorded.within {p : String × Item} (h : Recorded a p) (hwithin : a.Within a')
    (hentry : a'.signatureOf p.1 p.2 = a.signatureOf p.1 p.2) : Recorded a' p := by
  refine ⟨fun t ht => (resolveType_within hwithin (h.clean t ht)).1, fun hp => ?_⟩
  rw [hentry, h.entry hp, signature_congr fun t ht => ((resolveType_within hwithin (h.clean t ht)).2).symm]

theorem within_of_symbols (h : a'.symbols = a.symbols) : a.Within a' := fun name symbol hget => by rw [h]; exact hget

theorem Tables.record {done : List (String × Item)} (h : Tables a done) (hclean : Clean (a.record name item))
    (hfresh : ∀ p ∈ done, key p ≠ key (name, item)) : Tables (a.record name item).value (done ++ [(name, item)]) := by
  have hwithin : a.Within (a.record name item).value := within_of_symbols record_symbols
  refine ⟨fun p hp => ?_, fun name' item' hsome => ?_⟩
  · rcases List.mem_append.mp hp with hp | hp
    · exact (h.recorded p hp).within hwithin (record_frame (hfresh p hp))
    · rw [List.mem_singleton.mp hp]
      have htypes := clean_record hclean
      refine ⟨fun t ht => (resolveType_within hwithin (htypes t ht)).1, fun hitem => ?_⟩
      rw [record_entry hitem, signature_congr fun t ht => ((resolveType_within hwithin (htypes t ht)).2).symm]
  · by_cases hnew : key (name', item') = key (name, item) ∧ item'.isCallable = item.isCallable
    · exact ⟨(name, item), List.mem_append_right _ List.mem_cons_self, hnew.1.symm, hnew.2.symm⟩
    · have hframe : (a.record name item).value.signatureOf name' item' = a.signatureOf name' item' := by
        rcases not_and_or.mp hnew with hkey | hcallable
        · exact record_frame hkey
        · exact record_frame_callable hcallable
      rw [hframe] at hsome
      obtain ⟨p, hp, hpkey⟩ := h.only name' item' hsome
      exact ⟨p, List.mem_append_left _ hp, hpkey⟩

/-- Entering a symbol changes no table. -/
theorem insertSymbol_signatureOf {name' : String} {item' : Item} :
    (a.insertSymbol name item).value.signatureOf name' item' = a.signatureOf name' item' := by
  have htype : ∀ kind span, (a.insertType name kind span).value.signatureOf name' item' = a.signatureOf name' item' := by
    intro kind span
    unfold Analyzer.insertType
    split_ifs <;> cases item' <;> rfl
  have hvalue : ∀ kind span, (a.insertValue name kind span).value.signatureOf name' item' = a.signatureOf name' item' := by
    intro kind span
    unfold Analyzer.insertValue
    split_ifs <;> cases item' <;> rfl
  cases item with
  | struct node => exact htype _ _
  | enum node => exact htype _ _
  | state node => exact htype _ _
  | function node => exact hvalue _ _
  | agent node => exact hvalue _ _
  | pipeline node => exact hvalue _ _
  | safetyBound node => exact hvalue _ _

theorem insertSymbol_within {ps : List (String × Item)} (h : Symbols a ps) (hclean : Clean (a.insertSymbol name item)) :
    a.Within (a.insertSymbol name item).value := by
  intro n symbol hget
  rw [(h.insert hclean).types n symbol]
  rcases (h.types n symbol).mp hget with hs | ⟨p, hp, hs⟩
  · exact .inl hs
  · exact .inr ⟨p, List.mem_append_left _ hp, hs⟩

theorem Tables.insertSymbol {ps done : List (String × Item)} (h : Tables a done) (hsymbols : Symbols a ps)
    (hclean : Clean (a.insertSymbol name item)) : Tables (a.insertSymbol name item).value done := by
  refine ⟨fun p hp => (h.recorded p hp).within (insertSymbol_within hsymbols hclean) insertSymbol_signatureOf, ?_⟩
  intro name' item' hsome
  rw [insertSymbol_signatureOf] at hsome
  exact h.only name' item' hsome

theorem resolveDeclaration_symbols (a : Analyzer) (item : Item) : (a.resolveDeclaration item).value.symbols = a.symbols := by
  cases item <;> unfold Analyzer.resolveDeclaration <;> simp only [] <;> (try split_ifs) <;> rfl

/-- A declaration that has its symbol and no entry yet is entered. -/
theorem resolveDeclaration_record {item : Item} (htype : ∀ kind, item.typeKind = some kind → a.hasTypeKind item.name kind = true)
    (hvalue : ∀ kind, item.valueKind = some kind → a.hasValueKind item.name kind = true)
    (hfree : a.signatureOf item.name item = none) (hclean : Clean (a.resolveDeclaration item)) :
    Clean (a.record item.name item) ∧ (a.resolveDeclaration item).value = (a.record item.name item).value := by
  have hcontains : ∀ {α β : Type} {m : OrdMap String α} {f : α → β} {n : String}, (m.get? n).map f = none →
      m.contains n = false := by
    intro α β m f n hnone
    rw [OrdMap.contains, Option.map_eq_none_iff.mp hnone]
    rfl
  cases item with
  | struct node =>
    have hkind : a.hasTypeKind node.name .struct = true := htype _ rfl
    rw [Analyzer.resolveDeclaration, if_pos hkind] at hclean ⊢
    exact ⟨hclean, rfl⟩
  | enum node =>
    have hkind : a.hasTypeKind node.name .enum = true := htype _ rfl
    rw [Analyzer.resolveDeclaration, if_pos hkind] at hclean ⊢
    exact ⟨hclean, rfl⟩
  | function node =>
    have hnew : a.functions.contains node.name = false := hcontains hfree
    have hkind : a.hasValueKind node.name .function = true := hvalue _ rfl
    rw [Analyzer.resolveDeclaration, hnew, hkind, if_neg (by decide)] at hclean ⊢
    exact ⟨hclean, rfl⟩
  | state node =>
    have hnew : a.states.contains node.name = false := by
      rw [OrdMap.contains]
      exact congrArg Option.isSome hfree
    simp only [Analyzer.resolveDeclaration, hnew, Bool.false_eq_true, if_false] at hclean ⊢
    exact ⟨hclean, rfl⟩
  | agent node =>
    have hnew : a.agents.contains node.name = false := hcontains hfree
    simp only [Analyzer.resolveDeclaration, hnew, Bool.false_eq_true, if_false, clean_bind] at hclean ⊢
    exact ⟨clean_bind.mpr ⟨hclean.1, clean_pure _⟩, rfl⟩
  | pipeline node =>
    have hnew : a.functions.contains node.name = false := hcontains hfree
    simp only [Analyzer.resolveDeclaration, hnew, Bool.false_eq_true, if_false, clean_bind] at hclean ⊢
    exact ⟨clean_bind.mpr ⟨hclean.1, clean_pure _⟩, rfl⟩
  | safetyBound node => exact ⟨clean_pure _, rfl⟩

/-- The declarations of a file, by their names. -/
def own (ast : SourceFile) : List (String × Item) := ast.items.map fun item => (item.name, item)

theorem collectDeclarations_tables {file : String} {ast : SourceFile}
    (h : Clean ((Analyzer.new file).collectDeclarations ast.items)) :
    Symbols ((Analyzer.new file).collectDeclarations ast.items).value (own ast) ∧
      Tables ((Analyzer.new file).collectDeclarations ast.items).value [] := by
  refine Logged.foldlM_passes (P := fun done a => Symbols a (done.map fun item => (item.name, item)) ∧ Tables a [])
    (fun pre item post a _ hclean ha => ?_) h ⟨symbols_new file, tables_new file⟩
  rw [List.map_append]
  exact ⟨ha.1.insert hclean, ha.2.insertSymbol ha.1 hclean⟩

/-- The key of an element differs from those before it. -/
theorem key_ne_of_nodup {pre post : List (String × Item)} {p : String × Item} (h : ((pre ++ p :: post).map key).Nodup) :
    ∀ q ∈ pre, key q ≠ key p := by
  rw [List.map_append, List.nodup_append] at h
  intro q hq
  exact h.2.2 (key q) (List.mem_map_of_mem hq) (key p) (by simp)

theorem installImports_tables {ps imports : List (String × Item)} (hsymbols : Symbols a ps) (htables : Tables a [])
    (h : Clean (a.installImports imports)) :
    Symbols (a.installImports imports).value (ps ++ imports) ∧ Tables (a.installImports imports).value imports := by
  refine Logged.foldlM_passes (P := fun done a => Symbols a (ps ++ done) ∧ Tables a done)
    (fun pre p post a _ hclean ha => ?_) h (by rw [List.append_nil]; exact ⟨hsymbols, htables⟩)
  obtain ⟨hinsert, hrecord⟩ := clean_bind.mp hclean
  have hinserted := ha.1.insert hinsert
  have hfresh : ∀ q ∈ pre, key q ≠ key p := fun q hq =>
    key_ne_of_nodup hinserted.nodup q (List.mem_append_right _ hq)
  rw [List.append_assoc] at hinserted
  exact ⟨hinserted.of_eq record_symbols, (ha.2.insertSymbol ha.1 hinsert).record hrecord hfresh⟩

theorem Symbols.hasTypeKind {ps : List (String × Item)} (h : Symbols a ps) {p : String × Item} (hp : p ∈ ps)
    {kind : TypeSymbolKind} (hkind : p.2.typeKind = some kind) : a.hasTypeKind p.1 kind = true := by
  have hget := (h.types p.1 ⟨p.1, kind, p.2.span⟩).mpr (.inr ⟨p, hp, rfl, by simp [typeSymbol, hkind]⟩)
  simp [Analyzer.hasTypeKind, hget]

theorem Symbols.hasValueKind {ps : List (String × Item)} (h : Symbols a ps) {p : String × Item} (hp : p ∈ ps)
    {kind : ValueSymbolKind} (hkind : p.2.valueKind = some kind) : a.hasValueKind p.1 kind = true := by
  have hget := (h.values p.1 ⟨p.1, kind, p.2.span⟩).mpr (.inr ⟨p, hp, rfl, by simp [valueSymbol, hkind]⟩)
  simp [Analyzer.hasValueKind, hget]

theorem resolveDeclarations_tables {ast : SourceFile} {imports : List (String × Item)}
    (hsymbols : Symbols a (own ast ++ imports)) (htables : Tables a imports) (h : Clean (a.resolveDeclarations ast.items)) :
    Symbols (a.resolveDeclarations ast.items).value (own ast ++ imports) ∧
      Tables (a.resolveDeclarations ast.items).value (imports ++ own ast) := by
  refine Logged.foldlM_passes
    (P := fun done a => Symbols a (own ast ++ imports) ∧ Tables a (imports ++ done.map fun item => (item.name, item)))
    (fun pre item post a hitems hclean ha => ?_) h (by rw [List.map_nil, List.append_nil]; exact ⟨hsymbols, htables⟩)
  have hown : own ast = pre.map (fun item => (item.name, item)) ++ (item.name, item) :: post.map fun item => (item.name, item) := by
    rw [own, hitems, List.map_append, List.map_cons]
  have hmem : (item.name, item) ∈ own ast ++ imports := List.mem_append_left _ (by rw [hown]; simp)
  -- what is entered already comes before the item, or is an import
  have hfresh : ∀ q ∈ imports ++ pre.map (fun item => (item.name, item)), key q ≠ key (item.name, item) := by
    have hnodup := ha.1.nodup
    intro q hq
    rcases List.mem_append.mp hq with hq | hq
    · rw [List.map_append, List.nodup_append] at hnodup
      exact fun heq => hnodup.2.2 (key (item.name, item)) (List.mem_map_of_mem (by rw [hown]; simp)) (key q)
        (List.mem_map_of_mem hq) heq.symm
    · rw [hown, List.append_assoc] at hnodup
      exact key_ne_of_nodup hnodup q hq
  have hfree : a.signatureOf item.name item = none := by
    by_contra hsome
    obtain ⟨q, hq, hkey, -⟩ := ha.2.only item.name item (Option.isSome_iff_ne_none.mpr hsome)
    exact hfresh q hq hkey
  obtain ⟨hrecord, hvalue⟩ := resolveDeclaration_record (fun kind hkind => ha.1.hasTypeKind hmem hkind)
    (fun kind hkind => ha.1.hasValueKind hmem hkind) hfree hclean
  rw [hvalue, List.map_append, ← List.append_assoc]
  exact ⟨ha.1.of_eq record_symbols, ha.2.record hrecord hfresh⟩

/-- **A file whose declarations report nothing has a symbol for each, and each entry is the item's own signature.** -/
theorem declared_tables {file : String} {ast : SourceFile} {imports : List (String × Item)}
    (h : Clean (declared file ast imports)) :
    Symbols (declared file ast imports).value (own ast ++ imports) ∧
      Tables (declared file ast imports).value (imports ++ own ast) := by
  unfold declared at h ⊢
  simp only [clean_bind, Logged.value_bind] at h ⊢
  obtain ⟨hcollect, himport, hresolve⟩ := h
  obtain ⟨hown, hempty⟩ := collectDeclarations_tables hcollect
  obtain ⟨hsymbols, htables⟩ := installImports_tables hown hempty himport
  exact resolveDeclarations_tables hsymbols htables hresolve

end
end Semantic
end Syllog
