import Syllog.LowerDrops
import Syllog.LowerScope
import Syllog.PackageFiles
/-!
# MirAdded — a module more and the types of the others

A module that comes last and that no file imports adds its definitions to those of the package and changes none.  It is the last in
the table of types too: a type of it takes over every other module's name that it shares.  The functions that were there are
lowered as before exactly as far as none of their types has such a name.
-/
namespace Syllog

namespace Mir

/-! ## The verifier in a larger program -/

theorem lookup_filter {p p' : MirProgram} {keep : DefId → Bool} (h : p.functions = p'.functions.filter fun f => keep f.id) {id : DefId}
    (hid : keep id = true) : p'.lookup id = p.lookup id := by
  unfold MirProgram.lookup
  rw [h, ← List.filter_reverse, List.find?_filter]
  congr 1
  funext f
  by_cases hf : f.id = id <;> simp [hf, hid]

section
variable {p p' : MirProgram} {f : MirFunction} (hfound : ∀ callee g, p.lookup callee = some g → p'.lookup callee = some g)
include hfound

theorem verifyTargets_of_found (h : verifyTargets p f = []) : verifyTargets p' f = [] := by
  refine flatMap_zipIdx_eq_nil fun i b hb => ?_
  have hcheck := flatMap_zipIdx_nil h hb
  obtain ⟨t, ht, -, hcallees⟩ := verifyTargets_nil h b (List.mem_of_getElem? hb)
  simp only [ht] at hcheck ⊢
  cases t with
  | call callee args destination next =>
    obtain ⟨g, hg⟩ := hcallees callee args destination next rfl
    simp only [hg] at hcheck
    simp only [hfound callee g hg]
    exact hcheck
  | ret => exact hcheck
  | goto target => exact hcheck
  | switchInt value targets otherwise => exact hcheck

/-- **A function that passes, passes where its callees are found too.** -/
theorem verifyFunction_of_found (h : verifyFunction p f = []) : verifyFunction p' f = [] := by
  obtain ⟨hblocks, hret, hparams, htargets, hbody⟩ := verifyFunction_nil h
  refine verifyFunction_eq_nil hblocks hret hparams (verifyTargets_of_found hfound htargets) fun i b defined hb hdef => ?_
  have hcheck := hbody i b defined hb hdef
  obtain ⟨t, ht, -, hcallees⟩ := verifyTargets_nil htargets b (List.mem_of_getElem? hb)
  simp only [verifyBlock, ht] at hcheck ⊢
  cases t with
  | call callee args destination next =>
    obtain ⟨g, hg⟩ := hcallees callee args destination next rfl
    simp only [verifyTerminator, hg] at hcheck
    simp only [verifyTerminator, hfound callee g hg]
    exact hcheck
  | ret => exact hcheck
  | goto target => exact hcheck
  | switchInt value targets otherwise => exact hcheck

end

end Mir

namespace Package

open Hir Ast Semantic Modules AstLower Lower Mir

/-! ## The definitions -/

section
variable {asts asts' : OrdMap String SourceFile} {name : String} {s s' : LinkState} {p p' : HirProgram} {k : Nat}

theorem lowerFiles_congr {k : Nat} {names : PlannedNames} {analyses analyses' : OrdMap String Analysis} {base : Nat}
    {files : List ModuleSource} (h : ∀ source ∈ files, analyses'.get? source.file = analyses.get? source.file) :
    lowerFiles k names analyses' base files = lowerFiles k names analyses base files := by
  unfold lowerFiles
  refine List.foldl_ext _ _ _ fun r source hs => ?_
  unfold lowerFile
  rw [h source hs]

/-- A package as it was linked: its modules, and what its files were lowered to. -/
structure LinkedExactly (asts : OrdMap String SourceFile) (s : LinkState) (p : HirProgram) : Prop where
  linked : LinkedFrom asts (analyzeModules (moduleSources asts)) (linkModules (moduleSources asts)).modules s p
  files : LoweredFiles (moduleIds (moduleSources asts)) asts (analyzeModules (moduleSources asts))
    (linkModules (moduleSources asts)).modules (moduleSources asts) s

theorem compilePackage_files {parser : Parser} {sources : List PackageSource} {p : HirProgram}
    {reports : List CompilerDiagnostic} (h : compilePackage parser.checkSyl sources = ⟨some p, reports⟩) :
    ∃ asts s, parsedSources parser sources = moduleSources asts ∧ LinkedExactly asts s p := by
  obtain ⟨asts, diagnostics, hcompiled⟩ := compilePackage_compiled h
  obtain ⟨hsources, w⟩ := hcompiled.linkedFrom
  exact ⟨asts, _, hsources, w, linkSources_files w.graph w.modules_eq w.named hcompiled.parses hcompiled.linked⟩

/-- **A module is lowered to the same definitions.** -/
theorem AddsModule.lowered_eq (h : AddsModule (moduleSources asts) (moduleSources asts') name)
    (hlast : ComesLast (moduleSources asts) name) (w : LinkedExactly asts s p) (w' : LinkedExactly asts' s' p') {m m' : ResolvedModule}
    (hm : (linkModules (moduleSources asts)).modules.get? k = some m)
    (hm' : (linkModules (moduleSources asts')).modules.get? k = some m') : s'.lowered k = s.lowered k := by
  obtain ⟨hk, -⟩ := h.get_after hlast w.linked.graph w'.linked.graph hm
  have hsame := h.same hlast w.linked w'.linked hm hm'
  have hbase : (planIdentities (analyzeModules (moduleSources asts')) asts').nextByModule.get? k =
      (planIdentities (analyzeModules (moduleSources asts)) asts).nextByModule.get? k := by
    have hnext := (w.linked.plansOwn hm).next
    have hnext' := (w'.linked.plansOwn hm').next
    rw [w.linked.graph.id k m hm] at hnext
    rw [w'.linked.graph.id k m' hm', h.ownPlan_eq hlast w.linked w'.linked hm hm'] at hnext'
    rw [hnext, hnext']
  have hfiles := w.files k m hm
  have hfiles' := w'.files k m' hm'
  rw [h.namesOf_eq hlast w.linked w'.linked hm hm', hbase, h.filter_placed hlast hk] at hfiles'
  refine Option.some.inj (hfiles'.symm.trans (Eq.trans ?_ hfiles))
  refine lowerFiles_congr fun source hs => ?_
  obtain ⟨hbefore, hplaced⟩ := List.mem_filter.mp hs
  obtain ⟨hafter, hplaced'⟩ := (h.placed_iff hlast hk).mpr ⟨hbefore, hplaced⟩
  rw [sourceAnalyses_get w.linked.graph hbefore hm (w.linked.parts.named source hbefore k m hplaced hm),
    sourceAnalyses_get w'.linked.graph hafter hm' (w'.linked.parts.named source hafter k m' hplaced' hm'),
    h.importsFor_eq hlast w.linked w'.linked hm hm']

theorem AddsModule.modules_get (h : AddsModule (moduleSources asts) (moduleSources asts') name)
    (hlast : ComesLast (moduleSources asts) name) (w : LinkedExactly asts s p) (w' : LinkedExactly asts' s' p')
    (hk : k ≠ (declaredNames (moduleSources asts)).length) : s.modules.get? k = s'.modules.get? k := by
  have hsome : ∀ {hirModule hirModule' : HirModule}, s.modules.get? k = some hirModule → s'.modules.get? k = some hirModule' →
      hirModule = hirModule' := by
    intro hirModule hirModule' hh hh'
    obtain ⟨hid, m, hm⟩ := w.linked.parts.located k _ hh
    obtain ⟨hid', m', hm'⟩ := w'.linked.parts.located k _ hh'
    have hlowered := congrArg Prod.fst (h.lowered_eq hlast w w' hm hm')
    simp only [LinkState.lowered, hh, hh', Option.map_some, Option.getD_some] at hlowered
    cases hirModule
    cases hirModule'
    cases hid
    cases hid'
    cases hlowered
    rfl
  cases hget : s'.modules.get? k with
  | some hirModule' =>
    obtain ⟨-, m', hm'⟩ := w'.linked.parts.located k _ hget
    obtain ⟨source, hs, hplaced, -⟩ := h.get_before hlast w.linked.graph w'.linked.graph hk hm'
    obtain ⟨hirModule, hh⟩ := w.linked.parts.present source hs k hplaced
    rw [hh, hsome hh hget]
  | none =>
    by_contra hne
    obtain ⟨hirModule, hh⟩ := Option.ne_none_iff_exists'.mp hne
    obtain ⟨-, m, hm⟩ := w.linked.parts.located k _ hh
    obtain ⟨-, m', hm'⟩ := h.get_after hlast w.linked.graph w'.linked.graph hm
    obtain ⟨source, hs, hplaced, -⟩ := h.get_before hlast w.linked.graph w'.linked.graph hk hm'
    obtain ⟨hs', hplaced'⟩ := (h.placed_iff hlast hk).mpr ⟨hs, hplaced⟩
    obtain ⟨hirModule', hh'⟩ := w'.linked.parts.present source hs' k hplaced'
    rw [hget] at hh'
    cases hh'

/-- **The package's definitions are those of the larger one outside the new module.** -/
theorem AddsModule.definitions_filter (h : AddsModule (moduleSources asts) (moduleSources asts') name)
    (hlast : ComesLast (moduleSources asts) name) (w : LinkedExactly asts s p) (w' : LinkedExactly asts' s' p') :
    p.definitions = p'.definitions.filter fun d => d.id.module ≠ (declaredNames (moduleSources asts)).length := by
  have herase : s.modules = s'.modules.erase (declaredNames (moduleSources asts)).length := by
    refine OrdMap.ext_get? fun k => ?_
    rw [OrdMap.get?_erase]
    split_ifs with hk
    · cases hh : s.modules.get? k with
      | none => rfl
      | some hirModule =>
        obtain ⟨-, m, hm⟩ := w.linked.parts.located k _ hh
        exact absurd hk.symm (ids_lt (w.linked.graph.name k m hm)).ne
    · exact h.modules_get hlast w w' (Ne.symm hk)
  have hfilter : ∀ entries : List (Nat × HirModule), (∀ e ∈ entries, ∀ d ∈ e.2.definitions, d.id.module = e.1) →
      ((entries.filter (·.1 ≠ (declaredNames (moduleSources asts)).length)).map (·.2)).flatMap (·.definitions) =
        ((entries.map (·.2)).flatMap (·.definitions)).filter
          fun d => d.id.module ≠ (declaredNames (moduleSources asts)).length := by
    intro entries
    induction entries with
    | nil => exact fun _ => rfl
    | cons e entries ih =>
      intro hmodule
      have hrest := ih fun e' he' => hmodule e' (List.mem_cons_of_mem _ he')
      rw [List.map_cons, List.flatMap_cons, List.filter_append, ← hrest]
      by_cases he : e.1 = (declaredNames (moduleSources asts)).length
      · rw [List.filter_cons_of_neg (by simpa using he)]
        have hnone : e.2.definitions.filter (fun d => d.id.module ≠ (declaredNames (moduleSources asts)).length) = [] :=
          List.filter_eq_nil_iff.mpr fun d hd => by simp [hmodule e List.mem_cons_self d hd, he]
        rw [hnone, List.nil_append]
      · rw [List.filter_cons_of_pos (by simpa using he), List.map_cons, List.flatMap_cons]
        have hall : e.2.definitions.filter (fun d => d.id.module ≠ (declaredNames (moduleSources asts)).length) =
            e.2.definitions :=
          List.filter_eq_self.mpr fun d hd => by simp [hmodule e List.mem_cons_self d hd, he]
        rw [hall]
  unfold HirProgram.definitions
  rw [w.linked.program, w'.linked.program, herase]
  exact hfilter s'.modules.entries fun e he d hd => w'.linked.module_of_mem (OrdMap.get?_eq_some_iff.mpr he) hd

theorem LinkedFrom.module_lt {analysis : ModuleAnalysis} {modules : ModuleMap} (w : LinkedFrom asts analysis modules s p)
    {d : HirDefinition} (hd : d ∈ p.definitions) : d.id.module < (declaredNames (moduleSources asts)).length := by
  obtain ⟨k, m, i, item, hstands⟩ := w.stands_of_mem hd
  rw [(hstands.id_eq w).1]
  exact ids_lt (w.graph.name k m hstands.module)

end

/-! ## The types of the others -/

/-- No type of the module carries the name of a type that occurs in the program's functions. -/
def TypesApart (after : List ModuleSource) (name : String) (p : HirProgram) : Prop :=
  ∀ item ∈ itemsOf after name, item.isType = true → ∀ e ∈ HirProgram.functions p, ∀ ty ∈ e.2.types, ∀ t ∈ ty.nominals,
    t.nominalName ≠ some item.name

instance (after : List ModuleSource) (name : String) (p : HirProgram) : Decidable (TypesApart after name p) :=
  inferInstanceAs (Decidable (∀ item ∈ itemsOf after name, item.isType = true → ∀ e ∈ HirProgram.functions p, ∀ ty ∈ e.2.types,
    ∀ t ∈ ty.nominals, t.nominalName ≠ some item.name))

/-- The nominal types of the program's functions are lowered as before. -/
def TypesKept (p p' : HirProgram) : Prop :=
  ∀ e ∈ HirProgram.functions p, ∀ ty ∈ e.2.types, ∀ t ∈ ty.nominals,
    (ProgramIndex.new p').lowerType t = (ProgramIndex.new p).lowerType t

section
variable {asts asts' : OrdMap String SourceFile} {name : String} {s s' : LinkState} {p p' : HirProgram}

/-- A definition of the new module is of an item of it. -/
theorem AddsModule.item_of_new (h : AddsModule (moduleSources asts) (moduleSources asts') name)
    (hlast : ComesLast (moduleSources asts) name) (w' : LinkedExactly asts' s' p') {d : HirDefinition} (hd : d ∈ p'.definitions)
    (hmodule : d.id.module = (declaredNames (moduleSources asts)).length) :
    ∃ item ∈ itemsOf (moduleSources asts') name, item.name = d.name ∧ item.isType = d.kind.isType ∧
      ∀ id ∈ d.memberIds, id.module = (declaredNames (moduleSources asts)).length := by
  obtain ⟨k, m, i, item, hstands⟩ := w'.linked.stands_of_mem hd
  have hk : k = (declaredNames (moduleSources asts)).length := by
    rw [← hmodule, (hstands.id_eq w'.linked).1]
  subst hk
  -- the number is that of the new module alone
  have hname : m.name = name := by
    by_contra hne
    have hid := w'.linked.graph.name _ m hstands.module
    rw [h.get_ids hlast, if_neg (Ne.symm hne)] at hid
    exact absurd (ids_lt hid) (lt_irrefl _)
  obtain ⟨file, hi⟩ := hstands.place
  obtain ⟨_, _, _, hpart, -, hdefines⟩ := hstands.part
  refine ⟨item, ?_, hdefines.name.symm, hdefines.isType.symm, fun id hid => (hstands.member_placed w'.linked hid hpart.planned).1⟩
  rw [← hname, w'.linked.itemsOf_eq hstands.module]
  exact List.mem_map.mpr ⟨_, List.mem_of_getElem? hi, rfl⟩

/-- **The types of the others are lowered as before exactly where the new module has no type of their names.** -/
theorem AddsModule.typesKept_iff (h : AddsModule (moduleSources asts) (moduleSources asts') name)
    (hlast : ComesLast (moduleSources asts) name) (w : LinkedExactly asts s p) (w' : LinkedExactly asts' s' p') :
    TypesKept p p' ↔ TypesApart (moduleSources asts') name p := by
  constructor
  · intro hkept item hitem htype e he ty hty t ht hname
    obtain ⟨d, hd⟩ := w'.linked.exists_declares hitem
    obtain ⟨k, m, i, hm, hstands⟩ := w'.linked.stands_of_declares hd
    obtain ⟨_, _, _, _, -, hdefines⟩ := hstands.part
    have hmem := w'.linked.mem_of_stands hstands
    have hk : d.id.module = (declaredNames (moduleSources asts)).length := by
      have hid := w'.linked.graph.name k m hstands.module
      rw [h.get_ids hlast, if_pos hm.symm] at hid
      rw [(hstands.id_eq w'.linked).1]
      exact (Option.some.inj hid).symm
    have htype' : d.kind.isType = true := hdefines.isType.trans htype
    -- the larger package has a type of the name that is no earlier than the new one, the smaller one none
    obtain ⟨id, hid⟩ := exists_lookup_types w'.linked.nodup_ids hmem htype'
    have hle := ((lookup_types w'.linked.nodup_ids).mp hid).2 d hmem htype' rfl
    have hsame := hkept e he ty hty t ht
    rw [lowerType_nominal _ hname, lowerType_nominal _ hname, ← hdefines.name, hid] at hsame
    obtain ⟨id', hid', heq⟩ := Option.map_eq_some_iff.mp hsame.symm
    cases heq
    obtain ⟨⟨d', hd', -, -, rfl⟩, -⟩ := (lookup_types w.linked.nodup_ids).mp hid'
    have hlt := w.linked.module_lt hd'
    rw [← hk] at hlt
    exact absurd (lt_iff_lex.mpr (.inl hlt)) (not_lt.mpr hle)
  · intro hapart e he ty hty t ht
    obtain ⟨other, hother⟩ := nominals_nominal ty t ht
    have hforeign : ∀ d ∈ p'.definitions, decide (d.id.module ≠ (declaredNames (moduleSources asts)).length) = false →
        Foreign d {other} ∅ := fun d hd hnew => by
      obtain ⟨item, hitem, hname, htype, -⟩ := h.item_of_new hlast w' hd (by simpa using hnew)
      refine ⟨fun hkind heq => ?_, fun _ _ => id⟩
      rw [Set.mem_singleton_iff, ← hname] at heq
      exact hapart item hitem (htype.trans hkind) e he ty hty t ht (heq ▸ hother)
    have hsame := sameAt_filter _ w'.linked.nodup_ids (h.definitions_filter hlast w w') hforeign
    rw [lowerType_nominal _ hother, lowerType_nominal _ hother, hsame.types other rfl]

/-! ## The functions of the others -/

theorem AddsModule.functions_filter (h : AddsModule (moduleSources asts) (moduleSources asts') name)
    (hlast : ComesLast (moduleSources asts) name) (w : LinkedExactly asts s p) (w' : LinkedExactly asts' s' p') :
    HirProgram.functions p =
      (HirProgram.functions p').filter fun e => e.1.id.module ≠ (declaredNames (moduleSources asts)).length := by
  unfold HirProgram.functions
  rw [h.definitions_filter hlast w w', List.filterMap_filter, List.filter_filterMap]
  refine List.filterMap_congr fun d _ => ?_
  by_cases hd : d.id.module = (declaredNames (moduleSources asts)).length
  · cases hkind : d.kind <;> simp [hd, Option.filter]
  · cases hkind : d.kind <;> simp [hd, Option.filter]

/-- **A function whose types are kept is lowered as before.** -/
theorem AddsModule.lowerFunction_eq (h : AddsModule (moduleSources asts) (moduleSources asts') name)
    (hlast : ComesLast (moduleSources asts) name) (w : LinkedExactly asts s p) (w' : LinkedExactly asts' s' p')
    (hkept : TypesKept p p') {d : HirDefinition} {f : HirFunction} (hf : (d, f) ∈ HirProgram.functions p) :
    lowerFunction (ProgramIndex.new p') d f = lowerFunction (ProgramIndex.new p) d f := by
  refine lowerFunction_congr d ⟨fun ty hty => lowerType_congr ty fun t ht => hkept (d, f) hf ty hty t ht, fun r hr => ?_⟩
  obtain ⟨hd, hkind⟩ := mem_functions.mp hf
  have hreferent : r ∈ d.referents := by
    unfold HirDefinition.referents
    rw [hkind]
    exact hr
  have hmodule : r.definition.module ≠ (declaredNames (moduleSources asts)).length := by
    rcases w.linked.referents_placed hd hreferent with hbuiltin | ⟨t, ht⟩
    · rw [hbuiltin]
      exact hlast.few.ne'
    · exact (ids_lt (w.linked.graph.name _ t ht)).ne
  have hforeign : ∀ d ∈ p'.definitions, decide (d.id.module ≠ (declaredNames (moduleSources asts)).length) = false →
      Foreign d ∅ {r.definition} := fun d hd hnew => by
    obtain ⟨item, -, -, -, hmembers⟩ := h.item_of_new hlast w' hd (by simpa using hnew)
    refine ⟨fun _ => id, fun id hid heq => ?_⟩
    rw [Set.mem_singleton_iff] at heq
    exact hmodule (heq ▸ hmembers id hid)
  exact (sameAt_filter _ w'.linked.nodup_ids (h.definitions_filter hlast w w') hforeign).variants r.definition rfl

end

/-! ## The programs -/

/-- A function of a package as it is lowered, with its drops. -/
def loweredFunction (p : HirProgram) (e : HirDefinition × HirFunction) : MirFunction :=
  insertFunctionDrops (lowerFunction (ProgramIndex.new p) e.1 e.2).1

/-- What is verified of a package. -/
def loweredProgram (p : HirProgram) : MirProgram := ⟨(HirProgram.functions p).map (loweredFunction p), p.entry⟩

/-- The report is about a function of module `n`. -/
def ReportedIn (p : HirProgram) (n : Nat) (report : Lower.Diagnostic) : Prop :=
  ∃ e ∈ HirProgram.functions p, e.1.id.module = n ∧ (report ∈ (lowerFunction (ProgramIndex.new p) e.1 e.2).2 ∨
    ∃ error ∈ verifyFunction (loweredProgram p) (loweredFunction p e) ++ verifyAffineOwnership (loweredFunction p e),
      report = mirDiagnostic error)

/-- The functions of the smaller package are lowered in the larger one to the same functions, and no report is about them. -/
structure MirKept (p p' : HirProgram) (n : Nat) : Prop where
  functions : ∀ mir mir', lowerToMir p = .ok mir → lowerToMir p' = .ok mir' →
    mir.functions = mir'.functions.filter fun f => f.id.module ≠ n
  reports : ∀ mir reports, lowerToMir p = .ok mir → lowerToMir p' = .error reports → ∀ report ∈ reports, ReportedIn p' n report

theorem loweredFunction_id (p : HirProgram) (e : HirDefinition × HirFunction) : (loweredFunction p e).id = e.1.id := by
  rw [loweredFunction, insertFunctionDrops_id]
  rfl

theorem lowerToMir_program {p : HirProgram} {mir : MirProgram} (h : lowerToMir p = .ok mir) : mir = loweredProgram p :=
  (lowerToMir_ok h).2.2

/-- What lowering reports of a package: what it reports of its functions, or what the verifier does. -/
theorem lowerToMir_error {p : HirProgram} {reports : List Lower.Diagnostic} (h : lowerToMir p = .error reports) {report : Lower.Diagnostic}
    (hreport : report ∈ reports) : ∃ e ∈ HirProgram.functions p, report ∈ (lowerFunction (ProgramIndex.new p) e.1 e.2).2 ∨
      ∃ error ∈ verifyFunction (loweredProgram p) (loweredFunction p e) ++ verifyAffineOwnership (loweredFunction p e),
        report = mirDiagnostic error := by
  simp only [lowerToMir, List.map_map] at h
  split at h
  · split at h
    · cases h
    · rename_i errors hverify
      cases h
      obtain ⟨error, herror, rfl⟩ := List.mem_map.mp hreport
      simp only [verify] at hverify
      split at hverify
      · cases hverify
      · cases hverify
        obtain ⟨g, hg, herror⟩ := List.mem_flatMap.mp herror
        obtain ⟨e, he, rfl⟩ := List.mem_map.mp hg
        exact ⟨e, he, .inr ⟨error, herror, rfl⟩⟩
  · cases h
    obtain ⟨lowered, hlowered, hreport⟩ := List.mem_flatMap.mp hreport
    obtain ⟨e, he, rfl⟩ := List.mem_map.mp hlowered
    exact ⟨e, he, .inl hreport⟩

section
variable {asts asts' : OrdMap String SourceFile} {name : String} {s s' : LinkState} {p p' : HirProgram}

/-- What is verified of the smaller package is what is verified of the larger one outside the new module. -/
theorem AddsModule.loweredProgram_filter (h : AddsModule (moduleSources asts) (moduleSources asts') name)
    (hlast : ComesLast (moduleSources asts) name) (w : LinkedExactly asts s p) (w' : LinkedExactly asts' s' p')
    (hkept : TypesKept p p') : (loweredProgram p).functions =
      (loweredProgram p').functions.filter fun f => f.id.module ≠ (declaredNames (moduleSources asts)).length := by
  have hsame : ∀ e ∈ HirProgram.functions p, loweredFunction p e = loweredFunction p' e := fun e he => by
    rw [loweredFunction, loweredFunction, h.lowerFunction_eq hlast w w' hkept he]
  show (HirProgram.functions p).map (loweredFunction p) = ((HirProgram.functions p').map (loweredFunction p')).filter _
  rw [List.map_congr_left hsame, h.functions_filter hlast w w', List.filter_map]
  refine congrArg (List.map (loweredFunction p')) (List.filter_congr fun e _ => ?_)
  rw [Function.comp_apply, loweredFunction_id]

/-- **Where their types are kept, the functions keep their MIR**, and no report is about one of them. -/
theorem AddsModule.mirKept (h : AddsModule (moduleSources asts) (moduleSources asts') name)
    (hlast : ComesLast (moduleSources asts) name) (w : LinkedExactly asts s p) (w' : LinkedExactly asts' s' p')
    (hkept : TypesKept p p') : MirKept p p' (declaredNames (moduleSources asts)).length := by
  have hfilter := h.loweredProgram_filter hlast w w' hkept
  constructor
  · intro mir mir' hmir hmir'
    rw [lowerToMir_program hmir, lowerToMir_program hmir', hfilter]
  · intro mir reports hmir hreports report hreport
    obtain ⟨e, he, habout⟩ := lowerToMir_error hreports hreport
    refine ⟨e, he, ?_, habout⟩
    by_contra hne
    -- a function that was there is lowered without a report and passes the verifier
    have hbefore : e ∈ HirProgram.functions p := by
      rw [h.functions_filter hlast w w']
      exact List.mem_filter.mpr ⟨he, decide_eq_true hne⟩
    obtain ⟨hverify, hquiet, hprogram⟩ := lowerToMir_ok hmir
    have hlowered := h.lowerFunction_eq hlast w w' hkept hbefore
    have hsame : loweredFunction p' e = loweredFunction p e := by
      rw [loweredFunction, loweredFunction, hlowered]
    rcases habout with hlower | ⟨error, herror, -⟩
    · rw [hlowered, hquiet e.1 e.2 hbefore] at hlower
      cases hlower
    · have hmem : loweredFunction p e ∈ mir.functions := by
        rw [lowerToMir_program hmir]
        exact List.mem_map_of_mem hbefore
      obtain ⟨hfun, hown⟩ := verify_ok hverify _ hmem
      rw [lowerToMir_program hmir] at hfun
      have hfound : ∀ callee g, (loweredProgram p).lookup callee = some g → (loweredProgram p').lookup callee = some g := by
        intro callee g hg
        have hid : g.id = callee := of_decide_eq_true (@List.find?_some _ (fun f : MirFunction => f.id = callee) _ _ hg)
        have hkeep := (List.mem_filter.mp (hfilter ▸ MirProgram.lookup_mem hg)).2
        rw [hid] at hkeep
        rw [@lookup_filter _ _ (fun id => id.module ≠ (declaredNames (moduleSources asts)).length) hfilter _ hkeep, hg]
      rw [hsame, verifyFunction_of_found hfound hfun, hown] at herror
      cases herror

end

/-- `module a; pub enum E { A } pub fn f() -> E { E::A }`. -/
def choiceAst : SourceFile :=
  { module := some ⟨["a"], lineSpan 0 9⟩, imports := []
    items := [
      .enum ⟨true, "E", [⟨"A", [], lineSpan 23 24⟩], lineSpan 10 26⟩,
      .function ⟨true, false, "f", [], some (.path ["E"] [] (lineSpan 41 42)), none,
        .mk [.expression (.mk (.path ["E", "A"]) (lineSpan 45 49)) (lineSpan 45 49)] (lineSpan 43 51), lineSpan 27 51⟩]
    span := lineSpan 0 51 }

/-- `module b; pub struct S { x: I64 }`, with `name` for `S`. -/
def pointAst (name : String) : SourceFile :=
  { module := some ⟨["b"], lineSpan 0 9⟩, imports := []
    items := [.struct ⟨true, name, [⟨false, "x", .path ["I64"] [] (lineSpan 28 31), lineSpan 25 31⟩], lineSpan 10 33⟩]
    span := lineSpan 0 33 }

def choiceFile : PackageSource := ⟨"a.syl", "module a; pub enum E { A } pub fn f() -> E { E::A }"⟩

def pointFile (name : String) : PackageSource := ⟨"b.syl", "module b; pub struct " ++ name ++ " { x: I64 }"⟩

/-- The parser on these files. -/
def choiceParser : Parser where
  checkSyl _ text :=
    if text = choiceFile.source then ⟨some choiceAst, []⟩
    else if text = (pointFile "E").source then ⟨some (pointAst "E"), []⟩
    else if text = (pointFile "S").source then ⟨some (pointAst "S"), []⟩
    else ⟨none, [⟨"SYL0001", .error, "expected program", "", default⟩]⟩
  named file text ast h := by
    split_ifs at h
    · cases h
      exact ⟨by decide, by decide⟩
    · cases h
      exact ⟨by decide, by decide⟩
    · cases h
      exact ⟨by decide, by decide⟩

/-- Whether a definition is a function with this result. -/
def returns (t : ResolvedType) (d : HirDefinition) : Bool :=
  match d.kind with
  | .function f => f.result = t
  | _           => false

theorem choice_sources : parsedSources choiceParser [choiceFile] = [⟨"a.syl", choiceAst⟩] := rfl

theorem choice_point_sources {name : String} (h : name = "E" ∨ name = "S") :
    parsedSources choiceParser [choiceFile, pointFile name] = [⟨"a.syl", choiceAst⟩, ⟨"b.syl", pointAst name⟩] := by
  rcases h with rfl | rfl
  · rfl
  · rfl

theorem choice_addsModule {name : String} (h : name = "E" ∨ name = "S") :
    AddsModule (parsedSources choiceParser [choiceFile]) (parsedSources choiceParser [choiceFile, pointFile name]) "b" := by
  rw [choice_sources, choice_point_sources h]
  exact ⟨rfl, ⟨_, List.mem_cons_of_mem _ List.mem_cons_self, rfl⟩, by simp [choiceAst]⟩

theorem choice_comesLast : ComesLast (parsedSources choiceParser [choiceFile]) "b" := by
  rw [choice_sources]
  refine ⟨fun source hs other hname => ?_, by decide +kernel⟩
  cases List.mem_singleton.mp hs
  cases hname
  decide

end Package
end Syllog
