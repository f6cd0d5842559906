import Syllog.AstLowerIds
import Syllog.AnalyzeTables
/-!
# SingleFile — identities of one lowered file

The analyzer keeps types and values apart and accepts one name in both; lowering indexes all items of the file by name.  Two
items then share an identity exactly where they share their name.
-/
namespace Syllog
namespace AstLower

open Hir Ast Semantic

/-! ## What a clean analysis has checked -/

theorem clean_of_diagnostics {α : Type} {x : Checked α} (h : x.log.filterMap Note.diagnostic? = []) : Clean x := by
  intro note hnote hsome
  have hnone := List.filterMap_eq_nil_iff.mp h note hnote
  rw [hnone] at hsome
  cases hsome

theorem clean_analyzed {file : String} {ast : SourceFile} {imports : List (String × Item)}
    (h : (analyzeWithImports file ast imports).diagnostics = []) : Clean (analyzed file ast imports) :=
  clean_of_diagnostics (List.append_eq_nil_iff.mp h).1

theorem clean_checkBodies {a : Analyzer} : ∀ {items : List Item}, Clean (a.checkBodies items) → ∀ item ∈ items,
    Clean (a.checkBody item)
  | [], _, _, hitem => by cases hitem
  | _ :: _, h, item, hitem => by
    obtain ⟨hhead, htail⟩ := clean_bind.mp h
    rcases List.mem_cons.mp hitem with rfl | hitem
    · exact hhead
    · exact clean_checkBodies htail item hitem

theorem covers_parameterScope (parameters : List Parameter) (types : List ResolvedType) :
    Covers (parameters.map (·.name)) (Analyzer.parameterScope parameters types) := by
  intro name hname
  have hmem : name ∈ ((parameters.map (·.name)).zip types).map (·.1) := by
    by_contra hout
    rw [Analyzer.parameterScope, OrdMap.contains, OrdMap.get?_ofList_eq_none hout] at hname
    cases hname
  obtain ⟨e, he, rfl⟩ := List.mem_map.mp hmem
  exact (List.of_mem_zip he).1

/-- A function's body has been checked: what it uses freely is callable. -/
theorem checkFunction_callable {a : Analyzer} {node : FunctionNode} (hentry : (a.functions.get? node.name).isSome = true)
    (h : Clean (a.checkFunction node)) : Callable a (Item.function node).uses := by
  obtain ⟨signature, hget⟩ := Option.isSome_iff_exists.mp hentry
  obtain ⟨_, _, _, parameters, _, _, ⟨statements, span⟩, _⟩ := node
  simp only [Analyzer.checkFunction] at h hget
  rw [hget] at h
  simp only [checkBlock, clean_bind] at h
  exact checkStatements_callable statements (covers_parameterScope parameters _) h.1.1

/-- The same for the first `result` of a pipeline. -/
theorem checkPipeline_callable {a : Analyzer} {node : PipelineNode} (h : Clean (a.checkPipeline node)) :
    Callable a (optionUses ((property node.fields "result").map (·.value)) (node.parameters.map (·.name))) := by
  unfold Analyzer.checkPipeline at h
  cases hresult : property node.fields "result" with
  | none => exact callable_nil
  | some result =>
    simp only [hresult, clean_bind] at h
    exact inferExpr_callable result.value (covers_parameterScope node.parameters _) h.2.2.2.1

/-- The functions of a file are those it declares. -/
theorem mem_of_functions {a : Analyzer} {ast : SourceFile} (h : Tables a (own ast)) {name : String}
    (hname : a.functions.contains name = true) : ∃ item ∈ ast.items, item.isCallable = true ∧ item.name = name := by
  let node : FunctionNode := ⟨false, false, name, [], none, none, .mk [] default, default⟩
  have hsome : (a.signatureOf name (.function node)).isSome = true := by
    rw [Analyzer.signatureOf, Option.isSome_map]
    exact hname
  obtain ⟨p, hp, hkey, hcallable⟩ := h.only name (.function node) hsome
  obtain ⟨item, hitem, rfl⟩ := List.mem_map.mp hp
  exact ⟨item, hitem, hcallable, congrArg Prod.snd hkey⟩

/-! ## The names of a file on its own -/

/-- Names given to one file: globals below `top`, one to each name, and members at or above it. -/
structure Alone (l : Lowerer) (top : Nat) (items : List Item) : Prop where
  named : ∀ name, (∃ d, l.globals.get? name = some d) ↔ name ∈ items.map Item.name
  injective : ∀ name name' d, l.globals.get? name = some d → l.globals.get? name' = some d → name = name'
  placed : ∀ name d, l.globals.get? name = some d → d.module = l.module ∧ d.index < top
  member : ∀ segments d, l.memberOf segments = some d → d.module ≠ l.module ∨ top ≤ d.index

theorem builtinDefinition_module {name : String} {d : DefId} (h : builtinDefinition name = some d) :
    d.module = builtinModule := by
  unfold builtinDefinition at h
  split_ifs at h <;> cases h <;> rfl

theorem indexed_alone (ast : SourceFile) (analysis : Analysis) :
    ∃ top, Alone (indexed ast analysis 0 OrdMap.empty OrdMap.empty 0).1 top ast.items ∧
      top ≤ (indexed ast analysis 0 OrdMap.empty OrdMap.empty 0).2 := by
  have hglobals : Given 0 0 (indexGlobals 0 ast.items OrdMap.empty 0) := (Given.empty 0 0).indexKeys
  have hmembers : Given 0 (indexGlobals 0 ast.items OrdMap.empty 0).2
      (indexMembers 0 ast.items OrdMap.empty (indexGlobals 0 ast.items OrdMap.empty 0).2) := (Given.empty 0 _).indexKeys
  refine ⟨(indexGlobals 0 ast.items OrdMap.empty 0).2, ⟨fun name => ?_, hglobals.injective, fun name d hd => ?_,
    fun segments d hd => ?_⟩, hmembers.le⟩
  · have hcontains := @contains_indexKeys 0 name (ast.items.map Item.name) OrdMap.empty 0
    rw [OrdMap.contains, Option.isSome_iff_exists] at hcontains
    exact hcontains.trans (or_iff_right (by simp [OrdMap.contains]))
  · obtain ⟨hmodule, -, hindex⟩ := mem_idRange.mp (hglobals.placed name d hd)
    exact ⟨hmodule, hindex⟩
  · rcases Option.or_eq_some_iff.mp hd with hd | ⟨-, hd⟩
    · exact .inr (mem_idRange.mp (hmembers.placed _ d hd)).2.1
    · left
      rw [builtinDefinition_module hd]
      show builtinModule ≠ 0
      decide

theorem lowerToHir_eq_ok {ast : SourceFile} {symbols : SymbolTable} {h : HirProgram} (hlow : lowerToHir ast symbols = .ok h) :
    (analyze "<hir>" ast).diagnostics = [] ∧ (analyze "<hir>" ast).symbols = symbols ∧ ∃ m entry next,
      lowerModuleToHir ast (analyze "<hir>" ast) 0 OrdMap.empty OrdMap.empty 0 = .ok (m, entry, next) ∧ h = ⟨[m], entry⟩ := by
  unfold lowerToHir at hlow
  simp only at hlow
  split at hlow
  · cases hlow
  rename_i hdiag
  split at hlow
  · cases hlow
  rename_i hsymbols
  split at hlow
  · rename_i m entry next hm
    cases hlow
    exact ⟨not_not.mp hdiag, not_not.mp hsymbols, m, entry, next, hm, rfl⟩
  · cases hlow

/-! ## Identities -/

/-- Every item has its definition, and no two definitions share an identity. -/
def DistinctIds (ast : SourceFile) (h : HirProgram) : Prop :=
  List.Forall₂ (fun item d => d.name = item.name ∧ d.span = item.span) ast.items h.definitions ∧
    (h.definitions.map (·.id)).Nodup

/-- What a reference may carry: a name that nothing shadows, the identity of the item the analyzer resolved it to; any other
use, no top-level identity. -/
inductive Carries (ast : SourceFile) (symbols : SymbolTable) (h : HirProgram) : Use → Referent → Prop
  | item {name : String} {i : Nat} {item : Item} {target : HirDefinition} (declared : ast.items[i]? = some item)
      (lowered : h.definitions[i]? = some target) (named : item.name = name) (callable : item.isCallable = true)
      (resolved : symbols.values.get? name = valueSymbol (name, item)) :
      Carries ast symbols h (.value name false) (.reference target.id)
  | bound {name : String} {d : DefId} (inner : d ∉ h.definitions.map (·.id)) :
      Carries ast symbols h (.value name true) (.reference d)
  | path {segments : List String} {d : DefId} (inner : d ∉ h.definitions.map (·.id)) :
      Carries ast symbols h (.path segments) (.reference d)
  | pattern {segments : List String} {d : DefId} (inner : d ∉ h.definitions.map (·.id)) :
      Carries ast symbols h (.pattern segments) (.variant d)

/-- Every reference carries what its use stands for. -/
def ReferencesResolved (ast : SourceFile) (symbols : SymbolTable) (h : HirProgram) : Prop :=
  List.Forall₂ (fun item d => List.Forall₂ (Carries ast symbols h) item.uses d.referents) ast.items h.definitions

/-- The values an item's body uses freely. -/
def freeNames (item : Item) : List String := item.uses.filterMap fun use => match use with
  | .value name false => some name
  | _                 => none

def isPipeline : Item → Bool
  | .pipeline _ => true
  | _           => false

/-- What the lowered `result` of a pipeline uses freely is a function or a pipeline of the file. -/
def ResultsCallable (ast : SourceFile) : Prop :=
  ∀ item ∈ ast.items, isPipeline item = true → ∀ name ∈ freeNames item,
    ∃ target ∈ ast.items, target.isCallable = true ∧ target.name = name

theorem mem_freeNames {item : Item} {name : String} : name ∈ freeNames item ↔ Use.value name false ∈ item.uses := by
  unfold freeNames
  rw [List.mem_filterMap]
  constructor
  · rintro ⟨use, huse, hname⟩
    split at hname
    · cases hname
      exact huse
    · cases hname
  · intro huse
    exact ⟨_, huse, rfl⟩

section
variable {ast : SourceFile} {symbols : SymbolTable} {l : Lowerer} {top base last : Nat} {m : HirModule} {entry : Option DefId}

theorem ids_eq (hlowers : Lowers l base ast.items m last) :
    m.definitions.map (·.id) = (ast.items.map Item.name).map l.globalId := by
  have hdefines := hlowers.defines
  generalize ast.items = items at hdefines
  generalize m.definitions = definitions at hdefines
  induction hdefines with
  | nil => rfl
  | cons hd _ ih => rw [List.map_cons, List.map_cons, List.map_cons, hd.id, ih]

theorem globalId_eq (halone : Alone l top ast.items) {name : String} (hname : name ∈ ast.items.map Item.name) :
    l.globals.get? name = some (l.globalId name) := by
  obtain ⟨d, hd⟩ := (halone.named name).mpr hname
  rw [Lowerer.globalId, hd]
  rfl

/-- Definitions share an identity exactly where their items share a name. -/
theorem nodup_ids_iff (halone : Alone l top ast.items) (hlowers : Lowers l base ast.items m last) :
    (m.definitions.map (·.id)).Nodup ↔ (ast.items.map Item.name).Nodup := by
  rw [ids_eq hlowers]
  refine ⟨List.Nodup.of_map _, fun hnodup => hnodup.map_on fun name hname name' hname' heq => ?_⟩
  exact halone.injective name name' _ (globalId_eq halone hname) (heq ▸ globalId_eq halone hname')

/-- Top-level identities are those of the file's names. -/
theorem mem_ids_placed (halone : Alone l top ast.items) (hlowers : Lowers l base ast.items m last) {d : DefId}
    (hd : d ∈ m.definitions.map (·.id)) : d.module = l.module ∧ d.index < top := by
  rw [ids_eq hlowers] at hd
  obtain ⟨name, hname, rfl⟩ := List.mem_map.mp hd
  exact halone.placed name _ (globalId_eq halone hname)

/-- What stands at one place of two related lists. -/
theorem forall₂_at {α β : Type} {R : α → β → Prop} {as : List α} {bs : List β} (h : List.Forall₂ R as bs) :
    ∀ {a : α}, a ∈ as → ∃ (i : Nat) (b : β), as[i]? = some a ∧ bs[i]? = some b ∧ R a b := by
  induction h with
  | nil => exact fun ha => (List.not_mem_nil ha).elim
  | cons hab _ ih =>
    intro a ha
    rcases List.mem_cons.mp ha with rfl | ha
    · exact ⟨0, _, rfl, rfl, hab⟩
    · obtain ⟨i, b, hi, hb, hr⟩ := ih ha
      exact ⟨i + 1, b, hi, hb, hr⟩

/-- What a use is lowered to, it carries, where the names used freely are callable. -/
theorem carries_of_resolved (halone : Alone l top ast.items) (hlowers : Lowers l base ast.items m last) (hbase : top ≤ base)
    (hsymbols : ∀ item ∈ ast.items, ∀ kind, item.valueKind = some kind →
      symbols.values.get? item.name = valueSymbol (item.name, item))
    {use : Use} {referent : Referent} (hres : Resolved l base use referent)
    (hcallable : ∀ name, use = .value name false → ∃ target ∈ ast.items, target.isCallable = true ∧ target.name = name) :
    Carries ast symbols ⟨[m], entry⟩ use referent := by
  have hdefinitions : (⟨[m], entry⟩ : HirProgram).definitions = m.definitions := List.append_nil _
  have hinner : ∀ d : DefId, d.module ≠ l.module ∨ top ≤ d.index → d ∉ (⟨[m], entry⟩ : HirProgram).definitions.map (·.id) := by
    intro d hd hmem
    rw [hdefinitions] at hmem
    obtain ⟨hmodule, hindex⟩ := mem_ids_placed halone hlowers hmem
    rcases hd with hd | hd
    · exact hd hmodule
    · exact absurd hindex (not_lt.mpr hd)
  cases hres with
  | @free name d hglobal =>
    obtain ⟨target, htarget, hcall, rfl⟩ := hcallable name rfl
    obtain ⟨i, definition, hitem, hdef, hdefines⟩ := forall₂_at hlowers.defines htarget
    have hid : definition.id = d := by
      rw [hdefines.id, Lowerer.globalId, hglobal]
      rfl
    obtain ⟨kind, hkind⟩ : ∃ kind, target.valueKind = some kind := by
      cases target <;> first | exact ⟨_, rfl⟩ | cases hcall
    rw [← hid]
    exact .item hitem (by rw [hdefinitions]; exact hdef) rfl hcall (hsymbols target htarget kind hkind)
  | bound hmodule hindex => exact .bound (hinner _ (.inr (hbase.trans hindex)))
  | path hmember => exact .path (hinner _ (halone.member _ _ hmember))
  | pattern hmember => exact .pattern (hinner _ (halone.member _ _ hmember))

/-- What the items of a clean file use freely is callable, results of pipelines apart. -/
theorem items_callable {a : Analyzer} (htables : Tables a (own ast)) (hbodies : Clean (a.checkBodies ast.items))
    (hresults : ResultsCallable ast) : ∀ item ∈ ast.items, ∀ name, Use.value name false ∈ item.uses →
      ∃ target ∈ ast.items, target.isCallable = true ∧ target.name = name := by
  intro item hitem name huse
  have hbody := clean_checkBodies hbodies item hitem
  cases item with
  | function node =>
    have hrecorded := (htables.recorded (node.name, .function node) (List.mem_map.mpr ⟨_, hitem, rfl⟩)).entry rfl
    have hentry : (a.functions.get? node.name).isSome = true := by
      have hsome := congrArg Option.isSome hrecorded
      rw [Analyzer.signatureOf, Option.isSome_map] at hsome
      exact hsome
    exact mem_of_functions htables (checkFunction_callable hentry hbody name huse)
  | pipeline node => exact hresults (.pipeline node) hitem rfl name (mem_freeNames.mpr huse)
  | struct node => cases huse
  | enum node => cases huse
  | state node => cases huse
  | agent node => cases huse
  | safetyBound node => cases huse

/-- The results of a clean file's pipelines are callable where each has but one `result`: the analyzer has checked it. -/
theorem resultsCallable_of_single {file : String} (hdiag : (analyze file ast).diagnostics = [])
    (hsingle : ∀ node, Item.pipeline node ∈ ast.items → lastProperty node.fields "result" = property node.fields "result") :
    ResultsCallable ast := by
  intro item hitem hpipeline name hname
  cases item with
  | pipeline node =>
    obtain ⟨hdeclared, hbodies⟩ := clean_bind.mp (clean_analyzed hdiag)
    obtain ⟨-, htables⟩ := declared_tables hdeclared
    have hbody := clean_checkBodies (clean_bind.mp hbodies).1 (.pipeline node) hitem
    have huse := mem_freeNames.mp hname
    rw [Item.uses, hsingle node hitem] at huse
    exact mem_of_functions htables (checkPipeline_callable hbody name huse)
  | struct node => cases hpipeline
  | enum node => cases hpipeline
  | function node => cases hpipeline
  | state node => cases hpipeline
  | agent node => cases hpipeline
  | safetyBound node => cases hpipeline

end

/-- **One file's definitions have identities of their own, and its references carry those of the items the analyzer resolved
them to, exactly where no two items share a name and the results its pipelines are lowered from use only functions and
pipelines.** -/
theorem identities_distinct_iff {ast : SourceFile} {symbols : SymbolTable} {h : HirProgram}
    (hlow : lowerToHir ast symbols = .ok h) :
    DistinctIds ast h ∧ ReferencesResolved ast symbols h ↔ (ast.items.map Item.name).Nodup ∧ ResultsCallable ast := by
  obtain ⟨hdiag, rfl, m, entry, next, hmodule, rfl⟩ := lowerToHir_eq_ok hlow
  have hlowers := lowerModuleToHir_lowers hmodule
  obtain ⟨top, halone, hbase⟩ := indexed_alone ast (analyze "<hir>" ast)
  have hdefinitions : (⟨[m], entry⟩ : HirProgram).definitions = m.definitions := List.append_nil _
  have hnodup := nodup_ids_iff halone hlowers
  constructor
  · rintro ⟨⟨-, hids⟩, hrefs⟩
    rw [hdefinitions] at hids
    refine ⟨hnodup.mp hids, fun item hitem _ name hname => ?_⟩
    obtain ⟨i, definition, -, -, hcarries⟩ := forall₂_at hrefs hitem
    obtain ⟨j, referent, -, -, hcarry⟩ := forall₂_at hcarries (mem_freeNames.mp hname)
    cases hcarry with
    | item declared lowered named callable resolved => exact ⟨_, List.mem_of_getElem? declared, callable, named⟩
  · rintro ⟨hnames, hresults⟩
    obtain ⟨hdeclared, hbodies⟩ := clean_bind.mp (clean_analyzed hdiag)
    obtain ⟨hsymbols, htables⟩ := declared_tables hdeclared
    have hcallable := items_callable htables (clean_bind.mp hbodies).1 hresults
    refine ⟨⟨?_, ?_⟩, ?_⟩
    · rw [hdefinitions]
      exact hlowers.defines.imp fun item d hd => ⟨hd.name, hd.span⟩
    · rw [hdefinitions]
      exact hnodup.mpr hnames
    · have hvalue : ∀ item ∈ ast.items, ∀ kind, item.valueKind = some kind →
          (analyze "<hir>" ast).symbols.values.get? item.name = valueSymbol (item.name, item) := by
        intro item hitem kind hkind
        have hsymbol : valueSymbol (item.name, item) = some ⟨item.name, kind, item.span⟩ := by simp [valueSymbol, hkind]
        rw [hsymbol]
        exact (hsymbols.values item.name _).mpr
          (.inr ⟨(item.name, item), List.mem_append_left _ (List.mem_map.mpr ⟨item, hitem, rfl⟩), rfl, hsymbol⟩)
      unfold ReferencesResolved
      rw [hdefinitions]
      refine ((List.forall₂_and_left _ _).mpr ⟨hcallable, hlowers.defines⟩).imp fun item d hd => ?_
      have huses : ∀ use ∈ item.uses, ∀ name, use = .value name false →
          ∃ target ∈ ast.items, target.isCallable = true ∧ target.name = name := by
        rintro use huse name rfl
        exact hd.1 name huse
      exact ((List.forall₂_and_left _ _).mpr ⟨huses, hd.2.referents⟩).imp fun use referent hr =>
        carries_of_resolved halone hlowers hbase hvalue hr.2 hr.1

/-- `fn A() -> I32 { 1 }` and `fn main() -> I32 { A() }`. -/
def callerSource : SourceFile :=
  let i32 : TypeNode := .path ["I32"] [] ⟨0, 1, 0, 0, 0, 0⟩
  ⟨none, [], [
    .function ⟨false, false, "A", [], some i32, none, .mk [.expression (.mk (.literal (.integer 1)) ⟨1, 2, 0, 0, 0, 0⟩) default]
      default, ⟨0, 5, 0, 0, 0, 0⟩⟩,
    .function ⟨false, false, "main", [], some i32, none,
      .mk [.expression (.mk (.call (.mk (.literal (.identifier "A")) ⟨7, 8, 0, 0, 0, 0⟩) []) ⟨7, 9, 0, 0, 0, 0⟩) default] default,
      ⟨6, 10, 0, 0, 0, 0⟩⟩], default⟩

/-- The caller's file with `struct A {}` before it. -/
def sharedName : SourceFile :=
  { callerSource with items := .struct ⟨false, "A", [], ⟨11, 12, 0, 0, 0, 0⟩⟩ :: callerSource.items }

def isOk {ε α : Type} : Except ε α → Bool
  | .ok _    => true
  | .error _ => false

theorem exists_of_isOk {ε α : Type} {r : Except ε α} (h : isOk r = true) : ∃ a, r = .ok a := by
  cases r with
  | ok a => exact ⟨a, rfl⟩
  | error e => cases h

theorem callerSource_identities : ∃ h, lowerToHir callerSource (analyze "<hir>" callerSource).symbols = .ok h ∧
    DistinctIds callerSource h ∧ ReferencesResolved callerSource (analyze "<hir>" callerSource).symbols h := by
  obtain ⟨h, hlow⟩ : ∃ h, lowerToHir callerSource (analyze "<hir>" callerSource).symbols = .ok h :=
    exists_of_isOk (by decide +kernel)
  exact ⟨h, hlow, (identities_distinct_iff hlow).mpr ⟨by decide +kernel, by
    intro item hitem hpipeline
    simp only [callerSource, List.mem_cons, List.not_mem_nil, or_false] at hitem
    rcases hitem with rfl | rfl <;> cases hpipeline⟩⟩

/-- The analyzer accepts a struct and a function of one name; they are lowered to one identity. -/
theorem sharedName_collides : (analyze "a.syl" sharedName).diagnostics = [] ∧
    ∃ h, lowerToHir sharedName (analyze "a.syl" sharedName).symbols = .ok h ∧ ¬ DistinctIds sharedName h := by
  refine ⟨by decide +kernel, ?_⟩
  obtain ⟨h, hlow⟩ : ∃ h, lowerToHir sharedName (analyze "a.syl" sharedName).symbols = .ok h :=
    exists_of_isOk (by decide +kernel)
  refine ⟨h, hlow, fun hdistinct => ?_⟩
  have hids : (lowerToHir sharedName (analyze "a.syl" sharedName).symbols).toOption.map (fun h => h.definitions.map (·.id)) =
      some [⟨0, 0⟩, ⟨0, 0⟩, ⟨0, 1⟩] := by decide +kernel
  rw [hlow] at hids
  have heq : h.definitions.map (·.id) = [⟨0, 0⟩, ⟨0, 0⟩, ⟨0, 1⟩] := Option.some.inj hids
  have hnodup := hdistinct.2
  rw [heq] at hnodup
  exact absurd hnodup (by decide)

end AstLower
end Syllog
