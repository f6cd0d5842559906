import Syllog.Database
/-!
# DatabaseFresh — a session is indistinguishable from a fresh start

The answers of queries as functions of the inputs alone (`parseOf`, `hirOf`).  Every cache entry is the answer for the
current inputs (`Coherent`): an edit removes the entries it would make stale, so what is left stays true, and an answer is
the same whether it comes from a cache or not.
-/
namespace Syllog
namespace Database

variable {Ast Symbols : Type}

namespace IncrementalCompilerDatabase

def text (db : IncrementalCompilerDatabase Ast) (file : SourceFileId) : Option String := (db.sources.get? file).map (·.text)

end IncrementalCompilerDatabase

open IncrementalCompilerDatabase

section
variable (fe : Frontend Ast Symbols)

/-! ## Answers as functions of the inputs -/

def parseOf (text : Option String) (file : SourceFileId) : ParseResult Ast :=
  match text with
  | none      => unsetParse file
  | some text => checkedParse fe file text

def buildOf (texts : SourceFileId → Option String) : Nat → HirBuild → List SourceFileId → HirBuild
  | _, built, []                 => built
  | index, built, file :: files  =>
    buildOf texts (index + 1) (addFile fe file index (parseOf fe (texts file) file) built) files

def hirOf (texts : SourceFileId → Option String) (package : PackageId) : Option (List SourceFileId) → HirResult
  | none       => unknownPackage package
  | some files => finishBuild (buildOf fe texts 0 ⟨[], [], none⟩ files)

/-- Every cache entry is the answer for the current inputs, and package files are in normal form. -/
structure Coherent (db : IncrementalCompilerDatabase Ast) : Prop where
  parsed : ∀ file cached, db.parseCache.get? file = some cached →
    ∃ source, db.sources.get? file = some source ∧ cached.result = checkedParse fe file source.text
  built : ∀ package cached, db.hirCache.get? package = some cached →
    ∃ files, db.packages.get? package = some files ∧ cached.result = hirOf fe db.text package (some files)
  normal : ∀ package files, db.packages.get? package = some files → normalizeFiles files = files

/-- Two databases with the same inputs and the same flag. -/
def SameInputs (db db' : IncrementalCompilerDatabase Ast) : Prop :=
  db'.sources = db.sources ∧ db'.packages = db.packages ∧ db'.cancelled = db.cancelled

end

variable {fe : Frontend Ast Symbols} {db : IncrementalCompilerDatabase Ast}

theorem SameInputs.text {db' : IncrementalCompilerDatabase Ast} (h : SameInputs db db') : db'.text = db.text := by
  funext file
  simp only [IncrementalCompilerDatabase.text, h.1]

theorem parseOf_cancelled (text : Option String) (file : SourceFileId) : (parseOf fe text file).cancelled = false := by
  cases text <;> rfl

theorem hirOf_cancelled (texts : SourceFileId → Option String) (package : PackageId) (files : Option (List SourceFileId)) :
    (hirOf fe texts package files).cancelled = false := by
  cases files <;> rfl

theorem buildOf_congr {texts texts' : SourceFileId → Option String} : ∀ (files : List SourceFileId) (index : Nat)
    (built : HirBuild), (∀ f ∈ files, texts f = texts' f) →
      buildOf fe texts index built files = buildOf fe texts' index built files
  | [], _, _, _ => rfl
  | file :: files, index, built, h => by
    unfold buildOf
    rw [h file List.mem_cons_self]
    exact buildOf_congr files _ _ fun f hf => h f (List.mem_cons_of_mem _ hf)

/-! ## Queries -/

theorem parse_spec (hc : Coherent fe db) (hn : db.cancelled = false) (file : SourceFileId) :
    (db.parse fe file).2 = parseOf fe (db.text file) file ∧ Coherent fe (db.parse fe file).1 ∧
      SameInputs db (db.parse fe file).1 := by
  unfold IncrementalCompilerDatabase.parse
  rw [if_neg (by simp [hn])]
  cases hsource : db.sources.get? file with
  | none => exact ⟨by simp [parseOf, IncrementalCompilerDatabase.text, hsource], hc, rfl, rfl, rfl⟩
  | some source =>
    have htext : db.text file = some source.text := by simp [IncrementalCompilerDatabase.text, hsource]
    simp only [htext, parseOf]
    cases hcached : (db.parseCache.get? file).filter (·.revision = source.revision) with
    | some cached =>
      obtain ⟨hget, _⟩ := Option.filter_eq_some_iff.mp hcached
      obtain ⟨source', hsource', hresult⟩ := hc.parsed file cached hget
      rw [hsource] at hsource'
      cases hsource'
      exact ⟨hresult, hc, rfl, rfl, rfl⟩
    | none =>
      refine ⟨rfl, ⟨fun f cached hget => ?_, hc.built, hc.normal⟩, rfl, rfl, rfl⟩
      simp only [OrdMap.get?_insert] at hget
      by_cases hf : file = f
      · subst hf
        rw [if_pos rfl] at hget
        cases hget
        exact ⟨source, hsource, rfl⟩
      · rw [if_neg hf] at hget
        exact hc.parsed f cached hget

theorem buildFiles_spec : ∀ (files : List SourceFileId) (db : IncrementalCompilerDatabase Ast) (index : Nat)
    (built : HirBuild), Coherent fe db → db.cancelled = false →
      ∃ db', buildFiles fe db index built files = (db', some (buildOf fe db.text index built files)) ∧
        Coherent fe db' ∧ SameInputs db db'
  | [], db, _, _, hc, _ => ⟨db, rfl, hc, rfl, rfl, rfl⟩
  | file :: files, db, index, built, hc, hn => by
    obtain ⟨hresult, hc1, hsame⟩ := parse_spec hc hn file
    have hn1 : (db.parse fe file).1.cancelled = false := hsame.2.2.trans hn
    obtain ⟨db', hbuild, hc', hsame'⟩ := buildFiles_spec files (db.parse fe file).1 (index + 1)
      (addFile fe file index (db.parse fe file).2 built) hc1 hn1
    refine ⟨db', ?_, hc', hsame'.1.trans hsame.1, hsame'.2.1.trans hsame.2.1, hsame'.2.2.trans hsame.2.2⟩
    unfold buildFiles
    rw [if_neg (by simp [hn])]
    rw [hresult, hsame.text] at hbuild
    simp only [hresult, parseOf_cancelled, Bool.false_eq_true, if_false]
    exact hbuild

theorem buildHir_spec (hc : Coherent fe db) (hn : db.cancelled = false) (package : PackageId) :
    (db.buildHir fe package).2 = hirOf fe db.text package (db.packages.get? package) ∧
      Coherent fe (db.buildHir fe package).1 ∧ SameInputs db (db.buildHir fe package).1 := by
  unfold IncrementalCompilerDatabase.buildHir
  cases hfiles : db.packages.get? package with
  | none => exact ⟨rfl, hc, rfl, rfl, rfl⟩
  | some files =>
    obtain ⟨db', hbuild, hc', hsame⟩ := buildFiles_spec files db 0 ⟨[], [], none⟩ hc hn
    simp only [hbuild]
    exact ⟨rfl, hc', hsame⟩

theorem hir_spec (hc : Coherent fe db) (hn : db.cancelled = false) (package : PackageId) :
    (db.hir fe package).2 = hirOf fe db.text package (db.packages.get? package) ∧
      Coherent fe (db.hir fe package).1 ∧ SameInputs db (db.hir fe package).1 := by
  have hbuild := buildHir_spec hc hn package
  unfold IncrementalCompilerDatabase.hir
  rw [if_neg (by simp [hn])]
  cases hfiles : db.packages.get? package with
  | none =>
    rw [hfiles] at hbuild
    simpa [fingerprint, hfiles] using hbuild
  | some files =>
    rw [hfiles] at hbuild
    obtain ⟨hresult, hc', hsame⟩ := hbuild
    simp only [fingerprint, hfiles, Option.map_some]
    split
    · rename_i cached hcached
      obtain ⟨hget, _⟩ := Option.filter_eq_some_iff.mp hcached
      obtain ⟨files', hfiles', hanswer⟩ := hc.built package cached hget
      rw [hfiles] at hfiles'
      cases hfiles'
      exact ⟨hanswer, hc, rfl, rfl, rfl⟩
    · have hlive : (db.buildHir fe package).2.cancelled = false := by rw [hresult, hirOf_cancelled]
      simp only [hlive, Bool.false_eq_true, if_false]
      refine ⟨hresult, ⟨hc'.parsed, fun p cached hget => ?_, hc'.normal⟩, hsame⟩
      simp only [OrdMap.get?_insert] at hget
      by_cases hp : package = p
      · subst hp
        rw [if_pos rfl] at hget
        cases hget
        refine ⟨files, hsame.2.1 ▸ hfiles, ?_⟩
        rw [hresult]
        exact congrArg (fun texts => hirOf fe texts package (some files)) hsame.text.symm
      · rw [if_neg hp] at hget
        exact hc'.built p cached hget

/-! ## Edits -/

theorem setSource_text (db : IncrementalCompilerDatabase Ast) (file f : SourceFileId) (t : String) :
    (db.setSource file t).text f = if file = f then some t else db.text f := by
  unfold IncrementalCompilerDatabase.setSource IncrementalCompilerDatabase.text
  split_ifs with hsame hf hf
  · subst hf; exact hsame
  · rfl
  · simp [hf]
  · simp [hf]

theorem setSource_packages (db : IncrementalCompilerDatabase Ast) (file : SourceFileId) (t : String) :
    (db.setSource file t).packages = db.packages := by
  unfold IncrementalCompilerDatabase.setSource
  split_ifs <;> rfl

theorem get?_foldl_erase {α : Type} (ps : List PackageId) : ∀ (cache : OrdMap PackageId α) (p : PackageId),
    (ps.foldl (fun cache package => cache.erase package) cache).get? p = if p ∈ ps then none else cache.get? p := by
  induction ps with
  | nil => intro cache p; simp
  | cons q ps ih =>
    intro cache p
    rw [List.foldl_cons, ih, OrdMap.get?_erase]
    by_cases hp : p ∈ ps
    · simp [hp]
    · by_cases hq : q = p
      · simp [hq]
      · simp [hp, hq, Ne.symm hq]

theorem setSource_coherent (hc : Coherent fe db) (file : SourceFileId) (t : String) : Coherent fe (db.setSource file t) := by
  have htext := setSource_text db file
  have hpackages := setSource_packages db file t
  by_cases hsame : (db.sources.get? file).map (·.text) = some t
  · rw [show db.setSource file t = db from if_pos hsame]
    exact hc
  refine ⟨fun f cached hget => ?_, fun package cached hget => ?_, fun package files hfiles => ?_⟩
  · simp only [IncrementalCompilerDatabase.setSource, if_neg hsame, OrdMap.get?_erase] at hget
    by_cases hf : file = f
    · rw [if_pos hf] at hget
      cases hget
    · rw [if_neg hf] at hget
      obtain ⟨source, hsource, hresult⟩ := hc.parsed f cached hget
      refine ⟨source, ?_, hresult⟩
      simp only [IncrementalCompilerDatabase.setSource, if_neg hsame, OrdMap.get?_insert, if_neg hf, hsource]
  · simp only [IncrementalCompilerDatabase.setSource, if_neg hsame, get?_foldl_erase] at hget
    split_ifs at hget with haffected
    obtain ⟨files, hfiles, hresult⟩ := hc.built package cached hget
    -- an entry that was not removed does not contain the file
    have hnot : file ∉ files := by
      intro hmem
      apply haffected
      refine List.mem_map.mpr ⟨(package, files), List.mem_filter.mpr ⟨OrdMap.get?_eq_some_iff.mp hfiles, ?_⟩, rfl⟩
      simpa using hmem
    refine ⟨files, hpackages ▸ hfiles, ?_⟩
    rw [hresult]
    simp only [hirOf]
    have hagree : ∀ f ∈ files, db.text f = (db.setSource file t).text f := by
      intro f hf
      have hne : file ≠ f := by
        rintro rfl
        exact hnot hf
      rw [htext f t, if_neg hne]
    rw [buildOf_congr files 0 ⟨[], [], none⟩ hagree]
  · rw [hpackages] at hfiles
    exact hc.normal package files hfiles

theorem normalizeFiles_idem (files : List SourceFileId) : normalizeFiles (normalizeFiles files) = normalizeFiles files := by
  have hsorted : (files.insertionSort (· ≤ ·)).Pairwise (· ≤ ·) := List.pairwise_insertionSort (· ≤ ·) files
  have hsub : (normalizeFiles files).Pairwise (· ≤ ·) := hsorted.sublist (List.destutter_sublist _ _)
  show ((normalizeFiles files).insertionSort (· ≤ ·)).destutter (· ≠ ·) = normalizeFiles files
  rw [hsub.insertionSort_eq]
  exact List.destutter_idem _ _

theorem setPackageFiles_packages (db : IncrementalCompilerDatabase Ast) (package p : PackageId) (files : List SourceFileId) :
    (db.setPackageFiles package files).packages.get? p =
      if package = p then some (normalizeFiles files) else db.packages.get? p := by
  unfold IncrementalCompilerDatabase.setPackageFiles
  split_ifs with hsame hp hp
  · subst hp; exact hsame
  · rfl
  · simp [hp]
  · simp [hp]

theorem setPackageFiles_sources (db : IncrementalCompilerDatabase Ast) (package : PackageId) (files : List SourceFileId) :
    (db.setPackageFiles package files).sources = db.sources := by
  unfold IncrementalCompilerDatabase.setPackageFiles
  split_ifs <;> rfl

theorem setPackageFiles_coherent (hc : Coherent fe db) (package : PackageId) (files : List SourceFileId) :
    Coherent fe (db.setPackageFiles package files) := by
  have hpackages := setPackageFiles_packages db package
  by_cases hsame : db.packages.get? package = some (normalizeFiles files)
  · rw [show db.setPackageFiles package files = db from if_pos hsame]
    exact hc
  refine ⟨fun f cached hget => ?_, fun p cached hget => ?_, fun p files' hfiles => ?_⟩
  · simp only [IncrementalCompilerDatabase.setPackageFiles, if_neg hsame] at hget ⊢
    exact hc.parsed f cached hget
  · simp only [IncrementalCompilerDatabase.setPackageFiles, if_neg hsame, OrdMap.get?_erase] at hget
    by_cases hp : package = p
    · rw [if_pos hp] at hget
      cases hget
    · rw [if_neg hp] at hget
      obtain ⟨files', hfiles', hresult⟩ := hc.built p cached hget
      refine ⟨files', by rw [hpackages, if_neg hp, hfiles'], ?_⟩
      simp only [IncrementalCompilerDatabase.setPackageFiles, if_neg hsame]
      exact hresult
  · rw [hpackages] at hfiles
    split_ifs at hfiles
    · cases hfiles
      exact normalizeFiles_idem files
    · exact hc.normal p files' hfiles

/-! ## Sessions -/

theorem coherent_new : Coherent fe (IncrementalCompilerDatabase.new : IncrementalCompilerDatabase Ast) :=
  ⟨fun _ _ h => (by cases h), fun _ _ h => (by cases h), fun _ _ h => (by cases h)⟩

theorem parse_cancelled (hn : db.cancelled = true) (file : SourceFileId) :
    db.parse fe file = (db, { ast := none, diagnostics := [], cancelled := true }) := by
  simp [IncrementalCompilerDatabase.parse, hn]

theorem hir_cancelled (hn : db.cancelled = true) (package : PackageId) : db.hir fe package = (db, cancelledHir) := by
  simp [IncrementalCompilerDatabase.hir, hn]

theorem apply_coherent (hc : Coherent fe db) (op : Operation) : Coherent fe (db.apply fe op) := by
  cases op with
  | setSource file text => exact setSource_coherent hc file text
  | setPackageFiles package files => exact setPackageFiles_coherent hc package files
  | cancel => exact ⟨hc.parsed, hc.built, hc.normal⟩
  | resetCancellation => exact ⟨hc.parsed, hc.built, hc.normal⟩
  | parse file =>
    cases hn : db.cancelled with
    | true => simpa [IncrementalCompilerDatabase.apply, parse_cancelled hn] using hc
    | false => exact (parse_spec hc hn file).2.1
  | hir package =>
    cases hn : db.cancelled with
    | true => simpa [IncrementalCompilerDatabase.apply, hir_cancelled hn] using hc
    | false => exact (hir_spec hc hn package).2.1
  | diagnostics package =>
    cases hn : db.cancelled with
    | true =>
      simpa [IncrementalCompilerDatabase.apply, IncrementalCompilerDatabase.diagnostics, hir_cancelled hn] using hc
    | false => exact (hir_spec hc hn package).2.1

/-- **The caches are coherent throughout every session.** -/
theorem after_coherent (hc : Coherent fe db) (ops : List Operation) : Coherent fe (db.after fe ops) := by
  induction ops generalizing db with
  | nil => exact hc
  | cons op ops ih => exact ih (apply_coherent hc op)

theorem after_append (db : IncrementalCompilerDatabase Ast) (ops more : List Operation) :
    db.after fe (ops ++ more) = (db.after fe ops).after fe more := List.foldl_append

theorem after_setSources (fe : Frontend Ast Symbols) : ∀ (l : List (SourceFileId × SourceInput)), l.Pairwise (fun a b => a.1 < b.1) →
    ∀ db : IncrementalCompilerDatabase Ast,
      let db' := db.after fe (l.map fun (file, source) => .setSource file source.text)
      (∀ f, db'.text f = match OrdMap.lookup f l with
        | some source => some source.text
        | none        => db.text f) ∧ db'.packages = db.packages
  | [], _, db => ⟨fun _ => rfl, rfl⟩
  | (file, source) :: l, hl, db => by
    obtain ⟨hhead, htail⟩ := List.pairwise_cons.mp hl
    obtain ⟨htext, hpackages⟩ := after_setSources fe l htail (db.setSource file source.text)
    refine ⟨fun f => (htext f).trans ?_, hpackages.trans (setSource_packages db file source.text)⟩
    rw [OrdMap.lookup, setSource_text]
    by_cases hf : file = f
    · subst hf
      rw [OrdMap.lookup_eq_none_of_lt hhead, if_pos rfl, if_pos rfl]
    · rw [if_neg hf, if_neg hf]

theorem after_setPackages (fe : Frontend Ast Symbols) : ∀ (l : List (PackageId × List SourceFileId)), l.Pairwise (fun a b => a.1 < b.1) →
    ∀ db : IncrementalCompilerDatabase Ast,
      let db' := db.after fe (l.map fun (package, files) => .setPackageFiles package files)
      (∀ p, db'.packages.get? p = match OrdMap.lookup p l with
        | some files => some (normalizeFiles files)
        | none       => db.packages.get? p) ∧ db'.sources = db.sources
  | [], _, db => ⟨fun _ => rfl, rfl⟩
  | (package, files) :: l, hl, db => by
    obtain ⟨hhead, htail⟩ := List.pairwise_cons.mp hl
    obtain ⟨hpackages, hsources⟩ := after_setPackages fe l htail (db.setPackageFiles package files)
    refine ⟨fun p => (hpackages p).trans ?_, hsources.trans (setPackageFiles_sources db package files)⟩
    rw [OrdMap.lookup, setPackageFiles_packages]
    by_cases hp : package = p
    · subst hp
      rw [OrdMap.lookup_eq_none_of_lt hhead, if_pos rfl, if_pos rfl]
    · rw [if_neg hp, if_neg hp]

theorem after_inputs_cancelled (l : List Operation) (hl : ∀ op ∈ l, op ≠ .cancel) :
    ∀ db : IncrementalCompilerDatabase Ast, db.cancelled = false → Coherent fe db → (db.after fe l).cancelled = false := by
  induction l with
  | nil => intro db hn _; exact hn
  | cons op l ih =>
    intro db hn hc
    refine ih (fun o ho => hl o (List.mem_cons_of_mem _ ho)) (db.apply fe op) ?_ (apply_coherent hc op)
    cases op with
    | cancel => exact absurd rfl (hl .cancel List.mem_cons_self)
    | resetCancellation => rfl
    | setSource file text =>
      simp only [IncrementalCompilerDatabase.apply, IncrementalCompilerDatabase.setSource]
      split_ifs <;> exact hn
    | setPackageFiles package files =>
      simp only [IncrementalCompilerDatabase.apply, IncrementalCompilerDatabase.setPackageFiles]
      split_ifs <;> exact hn
    | parse file => exact (parse_spec hc hn file).2.2.2.2.trans hn
    | hir package => exact (hir_spec hc hn package).2.2.2.2.trans hn
    | diagnostics package => exact (hir_spec hc hn package).2.2.2.2.trans hn

/-- A fresh database has the texts and package files it was given, and is not cancelled. -/
theorem fresh_spec (hc : Coherent fe db) :
    (fresh fe db).text = db.text ∧ (∀ p, (fresh fe db).packages.get? p = db.packages.get? p) ∧
      (fresh fe db).cancelled = false ∧ Coherent fe (fresh fe db) := by
  obtain ⟨htext, hnone⟩ := after_setSources fe db.sources.entries db.sources.sorted .new
  obtain ⟨hpackages, hsources⟩ := after_setPackages fe db.packages.entries db.packages.sorted
    (IncrementalCompilerDatabase.new.after fe (db.sources.entries.map fun (file, source) => .setSource file source.text))
  have hfresh : fresh fe db = (IncrementalCompilerDatabase.new.after fe
      (db.sources.entries.map fun (file, source) => .setSource file source.text)).after fe
      (db.packages.entries.map fun (package, files) => .setPackageFiles package files) := after_append _ _ _
  refine ⟨funext fun f => ?_, fun p => ?_, ?_, after_coherent coherent_new _⟩
  · rw [hfresh]
    simp only [IncrementalCompilerDatabase.text, hsources]
    refine (htext f).trans ?_
    show (match db.sources.get? f with
      | some source => some source.text
      | none        => none) = _
    cases db.sources.get? f <;> rfl
  · rw [hfresh]
    refine (hpackages p).trans ?_
    rw [hnone]
    show (match db.packages.get? p with
      | some files => some (normalizeFiles files)
      | none       => none) = _
    cases hp : db.packages.get? p with
    | none => rfl
    | some files => simp only [hc.normal p files hp]
  · refine after_inputs_cancelled _ (fun op hop => ?_) .new rfl coherent_new
    rcases List.mem_append.mp hop with hop | hop <;> obtain ⟨_, _, rfl⟩ := List.mem_map.mp hop <;> simp

end Database
end Syllog
