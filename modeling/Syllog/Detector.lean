import Syllog.Versions
/-!
# Detector — the hash of an interface as a detector of changes

Two versions of a module with one hash have the same signatures.  Other modules are then analyzed the same, where a name
stands for one item and what is exported under it is told by its signature: that of an agent or a pipeline is its name alone,
so these have to be read alike.
-/
namespace Syllog
namespace Modules

open Hir Ast Semantic

/-! ## Versions in a project -/

/-- The files of a module. -/
structure Version (name : String) (v : List ModuleSource) : Prop where
  nonempty : v ≠ []
  module : ∀ source ∈ v, moduleName source.ast = some name
  spelt : ∀ item ∈ publicItems name v, item.spelt = true

/-- The files of other modules, no more with it than modules have numbers. -/
structure Beside (name : String) (v others : List ModuleSource) : Prop where
  other : ∀ source ∈ others, moduleName source.ast ≠ some name
  files : ((v ++ others).map (·.file)).Nodup
  count : (v ++ others).length ≤ 2 ^ 32

section
variable {name : String} {v v' others : List ModuleSource}

/-- The names of the modules, once each. -/
def moduleNames (sources : List ModuleSource) : List String :=
  (OrdMap.ofList ((sources.filterMap fun source => moduleName source.ast).map (·, ()))).keys

theorem mem_moduleNames {sources : List ModuleSource} {name : String} :
    name ∈ moduleNames sources ↔ ∃ source ∈ sources, moduleName source.ast = some name := by
  rw [moduleNames, OrdMap.mem_keys_iff]
  constructor
  · rintro ⟨u, hu⟩
    obtain ⟨n, hn, heq⟩ := List.mem_map.mp (OrdMap.mem_of_get?_ofList hu)
    cases heq
    exact List.mem_filterMap.mp hn
  · intro h
    refine OrdMap.exists_get?_ofList (List.mem_map.mpr ⟨(name, ()), List.mem_map.mpr ⟨name, ?_, rfl⟩, rfl⟩)
    exact List.mem_filterMap.mpr h

/-- The numbers depend on the names alone. -/
theorem moduleIds_eq {sources sources' : List ModuleSource}
    (h : ∀ name, (∃ source ∈ sources, moduleName source.ast = some name) ↔
      ∃ source ∈ sources', moduleName source.ast = some name) : moduleIds sources = moduleIds sources' := by
  have hnames : moduleNames sources = moduleNames sources' := by
    have hsorted : ∀ m : OrdMap String Unit, m.keys.Pairwise (· < ·) := fun m => List.pairwise_map.mpr m.sorted
    refine List.Perm.eq_of_pairwise (fun a b _ _ hab hba => (lt_asymm hab hba).elim) (hsorted _) (hsorted _) ?_
    refine (List.perm_ext_iff_of_nodup (OrdMap.nodup_keys _) (OrdMap.nodup_keys _)).mpr fun n => ?_
    exact mem_moduleNames.trans ((h n).trans mem_moduleNames.symm)
  unfold moduleIds
  exact congrArg (fun names : List String => OrdMap.ofList (names.zipIdx.map fun e => (e.1, min e.2 (2 ^ 32 - 1)))) hnames

/-- As long as numbers last, modules have numbers of their own. -/
theorem moduleIds_inj {sources : List ModuleSource} (hcount : sources.length ≤ 2 ^ 32) {n n' : String} {k : Nat}
    (h : (moduleIds sources).get? n = some k) (h' : (moduleIds sources).get? n' = some k) : n = n' := by
  have hlength : (moduleNames sources).length ≤ 2 ^ 32 := by
    have hsub : (moduleNames sources).Subperm (sources.filterMap fun source => moduleName source.ast) :=
      List.subperm_of_subset (OrdMap.nodup_keys _) fun n hn => List.mem_filterMap.mpr (mem_moduleNames.mp hn)
    exact (hsub.length_le.trans (List.length_filterMap_le _ _)).trans hcount
  have hplace : ∀ {n : String}, (moduleIds sources).get? n = some k → (moduleNames sources)[k]? = some n := by
    intro n hn
    obtain ⟨⟨n', i⟩, he, heq⟩ := List.mem_map.mp (OrdMap.mem_of_get?_ofList hn)
    have hi := List.mem_zipIdx_iff_getElem?.mp he
    have hlt : i < (moduleNames sources).length := (List.getElem?_eq_some_iff.mp hi).1
    cases heq
    rw [min_eq_left (by omega)]
    exact hi
  exact Option.some.inj ((hplace h).symm.trans (hplace h'))

/-- Files of one kind stand in the order of their names. -/
theorem byFile_filter {l part : List ModuleSource} {q : ModuleSource → Bool} (hfiles : (l.map (·.file)).Nodup)
    (hpart : l.filter q = part) : (byFile l).filter q = byFile part := by
  have : Std.Total (fun a b : ModuleSource => a.file ≤ b.file) := ⟨fun a b => le_total _ _⟩
  have : IsTrans ModuleSource (fun a b : ModuleSource => a.file ≤ b.file) := ⟨fun a b c => le_trans⟩
  have hperm : ((byFile l).filter q).Perm (byFile part) := by
    rw [← hpart]
    exact ((List.perm_insertionSort _ l).filter q).trans (List.perm_insertionSort _ _).symm
  refine List.Perm.eq_of_pairwise (fun a b ha hb hab hba => ?_) ((List.pairwise_insertionSort _ l).filter q)
    (List.pairwise_insertionSort _ part) hperm
  have hmem : ∀ {x}, x ∈ (byFile l).filter q → x ∈ l := fun hx => (List.mem_insertionSort _).mp (List.mem_filter.mp hx).1
  exact List.inj_on_of_nodup_map hfiles (hmem ha) (hmem (hperm.mem_iff.mpr hb)) (le_antisymm hab hba)

/-- The numbers of the modules of a project. -/
abbrev numbers (v others : List ModuleSource) : OrdMap String Nat := moduleIds (byFile (v ++ others))

theorem Version.number (hv : Version name v) (others : List ModuleSource) : ∃ k, (numbers v others).get? name = some k := by
  obtain ⟨source, hs⟩ := List.exists_mem_of_ne_nil v hv.nonempty
  exact moduleIds_get ((List.mem_insertionSort _).mpr (List.mem_append_left _ hs)) (hv.module source hs)

/-- Another version goes by the same numbers. -/
theorem numbers_eq (hv : Version name v) (hv' : Version name v') (others : List ModuleSource) :
    numbers v' others = numbers v others := by
  have hnamed : ∀ {v : List ModuleSource}, Version name v → ∀ n, (∃ source ∈ byFile (v ++ others), moduleName source.ast = some n) ↔
      n = name ∨ ∃ source ∈ others, moduleName source.ast = some n := by
    intro v hv n
    constructor
    · rintro ⟨source, hs, hname⟩
      rcases List.mem_append.mp ((List.mem_insertionSort _).mp hs) with hs | hs
      · exact .inl (Option.some.inj (hname.symm.trans (hv.module source hs)))
      · exact .inr ⟨source, hs, hname⟩
    · rintro (rfl | ⟨source, hs, hname⟩)
      · obtain ⟨source, hs⟩ := List.exists_mem_of_ne_nil v hv.nonempty
        exact ⟨source, (List.mem_insertionSort _).mpr (List.mem_append_left _ hs), hv.module source hs⟩
      · exact ⟨source, (List.mem_insertionSort _).mpr (List.mem_append_right _ hs), hname⟩
  exact moduleIds_eq fun n => (hnamed hv' n).trans (hnamed hv n).symm

section
variable {k : Nat}

theorem Version.placed (hv : Version name v) (hk : (numbers v others).get? name = some k) {source : ModuleSource} (hs : source ∈ v) :
    placed (numbers v others) k source = true := by
  simp [Modules.placed, hv.module source hs, hk]

theorem Beside.not_placed (hb : Beside name v others) (hk : (numbers v others).get? name = some k) {source : ModuleSource}
    (hs : source ∈ others) : placed (numbers v others) k source = false := by
  refine decide_eq_false fun hplaced => ?_
  obtain ⟨n, hn, hid⟩ := Option.bind_eq_some_iff.mp hplaced
  have hcount : (byFile (v ++ others)).length ≤ 2 ^ 32 := by
    rw [byFile, List.length_insertionSort]
    exact hb.count
  exact hb.other source hs (moduleIds_inj hcount hid hk ▸ hn)

theorem files_of_version (hv : Version name v) (hb : Beside name v others) (hk : (numbers v others).get? name = some k) :
    (byFile (v ++ others)).filter (placed (numbers v others) k) = byFile v := by
  refine byFile_filter hb.files ?_
  rw [List.filter_append, List.filter_eq_self.mpr fun source hs => hv.placed hk hs,
    List.filter_eq_nil_iff.mpr fun source hs => by simp [hb.not_placed hk hs], List.append_nil]

theorem files_of_others (hv : Version name v) (hb : Beside name v others) (hk : (numbers v others).get? name = some k) :
    (byFile (v ++ others)).filter (fun source => !placed (numbers v others) k source) = byFile others := by
  refine byFile_filter hb.files ?_
  rw [List.filter_append, List.filter_eq_nil_iff.mpr fun source hs => by simp [hv.placed hk hs],
    List.filter_eq_self.mpr fun source hs => by simp [hb.not_placed hk hs], List.nil_append]

end

/-! ## Exports -/

/-- The items of a module, in the order of its files. -/
def itemsOf (v : List ModuleSource) : List Item := (byFile v).flatMap (·.ast.items)

/-- What other modules get under a name. -/
def exported (v : List ModuleSource) (name : String) : Option Item := ((itemsOf v).find? (·.name = name)).filter (·.isPublic)

/-- A name declared more than once. -/
def Repeated (v : List ModuleSource) (name : String) : Prop := 1 < ((itemsOf v).filter (·.name = name)).length

/-- Two versions export the same where their hash does not tell: under the names of agents and pipelines, and under names that
a version declares more than once. -/
def Covered (v v' : List ModuleSource) : Prop :=
  ∀ name, Repeated v name ∨ Repeated v' name ∨ (exported v name).any isRoute = true →
    Option.Rel ReadAlike (exported v name) (exported v' name)

theorem exportOf_version (hv : Version name v) (hb : Beside name v others) {k : Nat} (hk : (numbers v others).get? name = some k)
    (n : String) : exportOf (numbers v others) k (byFile (v ++ others)) n = exported v n := by
  have hitems : ((byFile v).flatMap fun source => source.ast.items.map (source.file, ·)).map (·.2) = itemsOf v := by
    rw [List.map_flatMap]
    refine List.flatMap_congr fun source _ => ?_
    rw [List.map_map]
    exact List.map_id _
  rw [exportOf, firstOf, itemsIn, files_of_version hv hb hk, exported, ← hitems, List.find?_map]
  rfl

theorem mem_itemsOf {item : Item} : item ∈ itemsOf v ↔ ∃ source ∈ v, item ∈ source.ast.items := by
  rw [itemsOf, List.mem_flatMap]
  exact exists_congr fun source => and_congr_left fun _ => List.mem_insertionSort _

theorem Version.mem_publicItems (hv : Version name v) {item : Item} :
    item ∈ publicItems name v ↔ item ∈ itemsOf v ∧ item.isPublic = true := by
  rw [publicItems, List.mem_flatMap, mem_itemsOf]
  constructor
  · rintro ⟨source, hs, hitem⟩
    obtain ⟨hitem, hpublic⟩ := List.mem_filter.mp hitem
    exact ⟨⟨source, (List.mem_filter.mp hs).1, hitem⟩, hpublic⟩
  · rintro ⟨⟨source, hs, hitem⟩, hpublic⟩
    exact ⟨source, List.mem_filter.mpr ⟨hs, decide_eq_true (hv.module source hs)⟩, List.mem_filter.mpr ⟨hitem, hpublic⟩⟩

theorem Version.mem_of_exported (hv : Version name v) {n : String} {item : Item} (h : exported v n = some item) :
    item ∈ publicItems name v ∧ item.name = n := by
  obtain ⟨hfind, hpublic⟩ := Option.filter_eq_some_iff.mp h
  exact ⟨hv.mem_publicItems.mpr ⟨List.mem_of_find?_eq_some hfind, hpublic⟩, by simpa using List.find?_some hfind⟩

/-- A public item with a name of its own is what is exported under it. -/
theorem Version.exported_of_mem (hv : Version name v) {item : Item} (h : item ∈ publicItems name v)
    (hunique : ¬ Repeated v item.name) : exported v item.name = some item := by
  obtain ⟨hitem, hpublic⟩ := hv.mem_publicItems.mp h
  have hnamed : item ∈ (itemsOf v).filter (·.name = item.name) := List.mem_filter.mpr ⟨hitem, decide_eq_true rfl⟩
  obtain ⟨only, honly⟩ : ∃ only, (itemsOf v).filter (·.name = item.name) = [only] := by
    rw [← List.length_eq_one_iff]
    have hpos := List.length_pos_of_mem hnamed
    unfold Repeated at hunique
    omega
  rw [honly] at hnamed
  rw [exported, ← List.head?_filter, honly, ← List.mem_singleton.mp hnamed]
  simp [hpublic]

theorem exported_signature (hv : Version name v) (hv' : Version name v')
    (hperm : ((publicItems name v).map itemSignature).Perm ((publicItems name v').map itemSignature)) {n : String} {item : Item}
    (h : exported v n = some item) (hunique : ¬ Repeated v' n) :
    ∃ item', exported v' n = some item' ∧ itemSignature item = itemSignature item' ∧ item'.spelt = true := by
  obtain ⟨hitem, hname⟩ := hv.mem_of_exported h
  obtain ⟨item', hitem', hsame⟩ := List.mem_map.mp (hperm.mem_iff.mp (List.mem_map_of_mem hitem))
  obtain ⟨hnames, -⟩ := itemSignature_inj (hv'.spelt _ hitem') (hv.spelt _ hitem) hsame
  have hname' : item'.name = n := hnames.trans hname
  refine ⟨item', ?_, hsame.symm, hv'.spelt _ hitem'⟩
  rw [← hname'] at hunique ⊢
  exact hv'.exported_of_mem hitem' hunique

/-- **Two versions with one hash export the same.** -/
theorem exports_alike (hv : Version name v) (hv' : Version name v')
    (hperm : ((publicItems name v).map itemSignature).Perm ((publicItems name v').map itemSignature)) (hcovered : Covered v v')
    (n : String) : Option.Rel ReadAlike (exported v n) (exported v' n) := by
  by_cases hcase : Repeated v n ∨ Repeated v' n ∨ (exported v n).any isRoute = true
  · exact hcovered n hcase
  · obtain ⟨hunique, hrest⟩ := not_or.mp hcase
    obtain ⟨hunique', hroute⟩ := not_or.mp hrest
    cases h : exported v n with
    | none =>
      cases h' : exported v' n with
      | none => exact .none
      | some item' =>
        obtain ⟨item, hitem, -⟩ := exported_signature hv' hv hperm.symm h' hunique
        rw [h] at hitem
        cases hitem
    | some item =>
      obtain ⟨item', h', hsame, hspelt'⟩ := exported_signature hv hv' hperm h hunique'
      obtain ⟨-, -, hinterface⟩ := itemSignature_inj (hv.spelt _ (hv.mem_of_exported h).1) hspelt' hsame
      rw [h] at hroute
      rw [h']
      exact .some (readAlike_of_same (hinterface (by simpa using hroute)))

/-- Where every name is declared once, only agents and pipelines are left. -/
theorem covered_of_nodup (h : ((itemsOf v).map (·.name)).Nodup) (h' : ((itemsOf v').map (·.name)).Nodup)
    (hroutes : ∀ item ∈ itemsOf v, isRoute item = false) : Covered v v' := by
  have honce : ∀ {v : List ModuleSource}, ((itemsOf v).map (·.name)).Nodup → ∀ n, ¬ Repeated v n := by
    intro v h n hrepeated
    have hcount := List.nodup_iff_count_le_one.mp h n
    rw [List.count_eq_countP, List.countP_map, List.countP_eq_length_filter] at hcount
    have hsame : (itemsOf v).filter ((· == n) ∘ (·.name)) = (itemsOf v).filter (·.name = n) :=
      List.filter_congr fun item _ => by simp [BEq.beq]
    rw [hsame] at hcount
    exact absurd hrepeated (not_lt.mpr hcount)
  rintro n (hn | hn | hn)
  · exact (honce h n hn).elim
  · exact (honce h' n hn).elim
  · exfalso
    obtain ⟨item, hitem, hroute⟩ := (Option.any_eq_true _ _).mp hn
    have hmem := List.mem_of_find?_eq_some (Option.filter_eq_some_iff.mp hitem).1
    rw [hroutes item hmem] at hroute
    cases hroute

/-! ## The detector -/

/-- A position, or two of them, one in each version. -/
def Displaced (name : String) (v v' : List ModuleSource) (s s' : Span) : Prop :=
  s = s' ∨ (∃ item ∈ publicItems name v, s ∈ item.positions) ∧ ∃ item ∈ publicItems name v', s' ∈ item.positions

theorem exchanged_versions (hv : Version name v) (hv' : Version name v') (hb : Beside name v others) (hb' : Beside name v' others)
    (hexports : ∀ n, Option.Rel ReadAlike (exported v n) (exported v' n)) {k : Nat} (hk : (numbers v others).get? name = some k) :
    Exchanged (Displaced name v v') (numbers v others) k (byFile (v ++ others)) (byFile (v' ++ others)) := by
  have hnumbers := numbers_eq hv hv' others
  have hk' : (numbers v' others).get? name = some k := hnumbers ▸ hk
  have hnodup : ∀ {v}, Beside name v others → ((byFile (v ++ others)).map (·.file)).Nodup := fun hb =>
    ((List.perm_insertionSort _ _).map _).nodup_iff.mpr hb.files
  refine ⟨hnodup hb, hnodup hb', ?_, fun n => ?_⟩
  · rw [files_of_others hv hb hk, ← hnumbers, files_of_others hv' hb' hk']
  · rw [exportOf_version hv hb hk, ← hnumbers, exportOf_version hv' hb' hk']
    have hboth := hexports n
    cases h : exported v n with
    | none =>
      rw [h] at hboth
      cases h' : exported v' n with
      | none => exact .none
      | some item' =>
        rw [h'] at hboth
        cases hboth
    | some item =>
      rw [h] at hboth
      cases h' : exported v' n with
      | none =>
        rw [h'] at hboth
        cases hboth
      | some item' =>
        rw [h'] at hboth
        cases hboth with | some hsame =>
        exact .some (hsame.moved fun s hs s' hs' =>
          .inr ⟨⟨item, (hv.mem_of_exported h).1, hs⟩, item', (hv'.mem_of_exported h').1, hs'⟩)

/-- The hash of a module is that of its files, in whatever project. -/
theorem interfaceText_project (hb : Beside name v others) :
    interfaceText name (byFile (v ++ others)) = interfaceText name v := by
  refine interfaceText_outline (List.Perm.map _ ?_)
  have hothers : publicItems name others = [] := by
    rw [publicItems, List.filter_eq_nil_iff.mpr fun source hs => by simpa using hb.other source hs]
    rfl
  have hall : publicItems name (v ++ others) = publicItems name v := by
    rw [publicItems, List.filter_append, List.flatMap_append]
    exact (congrArg (publicItems name v ++ ·) hothers).trans (List.append_nil _)
  rw [← hall]
  exact ((List.perm_insertionSort _ _).filter _).flatMap_right _

/-- Replacing one version by the other changes nothing in the files of other modules, whatever these are. -/
def Unnoticed (name : String) (v v' : List ModuleSource) : Prop :=
  ∀ others, Beside name v others → Beside name v' others → ∀ source ∈ others,
    Option.Rel (LikeAnalysis (Displaced name v v')) ((analyzeModules (v ++ others)).sourceAnalyses.get? source.file)
      ((analyzeModules (v' ++ others)).sourceAnalyses.get? source.file)

/-- **The hash is the same for versions with the same public signatures; and where two versions export the same under the names
that it does not tell, one hash means that no file of another module is analyzed differently.** -/
theorem interfaceHash_detects (hv : Version name v) (hv' : Version name v') (digest : List UInt8 → Vector UInt8 32)
    (hdigest : interfaceHash digest name v = interfaceHash digest name v' → interfaceText name v = interfaceText name v') :
    (((publicItems name v).map outline).Perm ((publicItems name v').map outline) →
      interfaceHash digest name v = interfaceHash digest name v') ∧
    (Covered v v' → interfaceHash digest name v = interfaceHash digest name v' → Unnoticed name v v') := by
  refine ⟨fun houtlines => ?_, fun hcovered hhash others hb hb' source hs => ?_⟩
  · rw [interfaceHash, interfaceHash, interfaceText_outline houtlines]
  have hperm := signatures_perm hv.spelt hv'.spelt (hdigest hhash)
  obtain ⟨k, hk⟩ := hv.number others
  have hexchanged := exchanged_versions hv hv' hb hb' (exports_alike hv hv' hperm hcovered) hk
  have hmem : ∀ v, source ∈ byFile (v ++ others) := fun v => (List.mem_insertionSort _).mpr (List.mem_append_right _ hs)
  exact hexchanged.analyses (fun s => .inl rfl) (numbers_eq hv hv' others) (hmem v) (hmem v') (hb.not_placed hk hs)

end

/-- A place in a file of one line. -/
def place (start stop : Nat) : Span := ⟨start, stop, 1, start + 1, 1, stop + 1⟩

/-- SHA-256 of `fn stable(I64)->I64;async=false`. -/
def stableDigest : Vector UInt8 32 := #v[0xef, 0x2c, 0xdc, 0x75, 0x2c, 0x01, 0x91, 0x40, 0xf4, 0x60, 0x69, 0x1b, 0x63, 0x9c, 0xea,
  0xb7, 0x9f, 0x42, 0xf8, 0xb3, 0xbe, 0x47, 0x35, 0xf3, 0x2c, 0x6c, 0xb1, 0xcd, 0x46, 0x1b, 0x7c, 0x74]

/-- `module api; pub fn stable(value: I64) -> I64 { value } fn detail() -> I64 { n }`, where `n` has `width` digits. -/
def apiOf (n : Int64) (width : Nat) : ModuleSource :=
  ⟨"src/api.syl", ⟨some ⟨["api"], place 0 11⟩, [],
    [.function ⟨true, false, "stable", [⟨"value", .path ["I64"] [] (place 33 36), place 26 36⟩],
      some (.path ["I64"] [] (place 41 44)), none,
      .mk [.expression (.mk (.literal (.identifier "value")) (place 47 52)) (place 47 52)] (place 45 54), place 12 54⟩,
    .function ⟨false, false, "detail", [], some (.path ["I64"] [] (place 70 73)), none,
      .mk [.expression (.mk (.literal (.integer n)) (place 76 (76 + width))) (place 76 (76 + width))] (place 74 (78 + width)),
      place 55 (78 + width)⟩], place 0 (78 + width)⟩⟩

/-- The body of a private function is no one else's. -/
theorem detail_unnoticed : interfaceHash (fun _ => stableDigest) "api" [apiOf 1 1] = interfaceHash (fun _ => stableDigest) "api"
    [apiOf 999 3] ∧ Unnoticed "api" [apiOf 1 1] [apiOf 999 3] := by
  have hversion : ∀ n width, Version "api" [apiOf n width] := by
    intro n width
    refine ⟨List.cons_ne_nil _ _, fun source hs => ?_, fun item hitem => ?_⟩
    · rw [List.mem_singleton.mp hs]
      rfl
    · have hitems : publicItems "api" [apiOf n width] = publicItems "api" [apiOf 1 1] := rfl
      rw [hitems] at hitem
      revert item
      decide
  have htext : interfaceText "api" [apiOf 1 1] = interfaceText "api" [apiOf 999 3] := rfl
  have hcovered : Covered [apiOf 1 1] [apiOf 999 3] := covered_of_nodup (by decide +kernel) (by decide +kernel) (by decide +kernel)
  obtain ⟨houtlines, hdetects⟩ := interfaceHash_detects (hversion 1 1) (hversion 999 3) (fun _ => stableDigest) fun _ => htext
  have hhash := houtlines (by rfl)
  exact ⟨hhash, hdetects hcovered hhash⟩

/-- `module workflow; pub pipeline relay(input: T) -> T { result: T = input }`, where `T` ends at `stop`. -/
def relayOf (ty : String) (stop : Nat) : ModuleSource :=
  let width := stop - 43
  ⟨"src/workflow.syl", ⟨some ⟨["workflow"], place 0 16⟩, [],
    [.pipeline ⟨true, "relay", [⟨"input", .path [ty] [] (place 43 stop), place 36 stop⟩],
      some (.path [ty] [] (place (stop + 5) (stop + 5 + width))),
      [⟨"result", some (.path [ty] [] (place (stop + 16 + width) (stop + 16 + 2 * width))),
        .mk (.literal (.identifier "input")) (place (stop + 19 + 2 * width) (stop + 24 + 2 * width)),
        place (stop + 8 + width) (stop + 24 + 2 * width)⟩], place 17 (stop + 26 + 2 * width)⟩],
    place 0 (stop + 26 + 2 * width)⟩⟩

/-- `module app; use workflow::relay; fn f() -> String { relay("x") }`. -/
def caller : ModuleSource :=
  ⟨"src/app.syl", ⟨some ⟨["app"], place 0 11⟩, [⟨["workflow", "relay"], none, place 12 32⟩],
    [.function ⟨false, false, "f", [], some (.path ["String"] [] (place 43 49)), none,
      .mk [.expression (.mk (.call (.mk (.literal (.identifier "relay")) (place 52 57))
        [.mk none (.mk (.literal (.string "x")) (place 58 61)) (place 58 61)]) (place 52 62)) (place 52 62)] (place 50 64),
      place 33 64⟩], place 0 64⟩⟩

/-- A pipeline of one name and other types leaves the hash and gives its caller an error. -/
theorem relay_noticed : (∀ digest, interfaceHash digest "workflow" [relayOf "String" 49] =
      interfaceHash digest "workflow" [relayOf "I64" 46]) ∧
    Version "workflow" [relayOf "String" 49] ∧ Version "workflow" [relayOf "I64" 46] ∧
    ¬ Unnoticed "workflow" [relayOf "String" 49] [relayOf "I64" 46] := by
  have htext : interfaceText "workflow" [relayOf "String" 49] = interfaceText "workflow" [relayOf "I64" 46] := by decide +kernel
  have hversion : ∀ ty ∈ [("String", 49), ("I64", 46)], Version "workflow" [relayOf ty.1 ty.2] := by
    intro ty hty
    refine ⟨List.cons_ne_nil _ _, by simp [relayOf, moduleName]; decide, ?_⟩
    revert ty
    decide +kernel
  have hbeside : ∀ ty ∈ [("String", 49), ("I64", 46)], Beside "workflow" [relayOf ty.1 ty.2] [caller] := by
    intro ty hty
    refine ⟨by decide, by simp [relayOf, caller], by simp⟩
  have hcounts : (((analyzeModules ([relayOf "String" 49] ++ [caller])).sourceAnalyses.get? caller.file).map
        (·.diagnostics.length)) = some 0 ∧
      (((analyzeModules ([relayOf "I64" 46] ++ [caller])).sourceAnalyses.get? caller.file).map
        (·.diagnostics.length)) = some 2 := by decide +kernel
  refine ⟨fun digest => by rw [interfaceHash, interfaceHash, htext], hversion _ List.mem_cons_self,
    hversion _ (List.mem_cons_of_mem _ List.mem_cons_self), fun hsame => ?_⟩
  have hanalyses := hsame [caller] (hbeside _ List.mem_cons_self) (hbeside _ (List.mem_cons_of_mem _ List.mem_cons_self))
    caller List.mem_cons_self
  have hlengths := rel_map hanalyses (S := (· = ·)) (f := fun r : Analysis => r.diagnostics.length)
    (g := fun r : Analysis => r.diagnostics.length) fun _ _ h => h.diagnostics.length_eq
  rw [hcounts.1, hcounts.2] at hlengths
  cases hlengths with | some h => exact absurd h (by decide)

end Modules
end Syllog
