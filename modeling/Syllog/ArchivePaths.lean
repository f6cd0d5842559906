import Syllog.Vendor
/-!
# ArchivePaths — where the files of an archive land

`PackageArchive::new` tells the paths of an archive apart by their texts, and extraction writes them by their components.
`tidy` is the one spelling of a component list; the files of an accepted archive land apart exactly when their tidy spellings
differ and none names a directory above another (`extractable_iff`).  They always stay inside the directory.
-/
namespace Syllog

/-! ## Spellings of a path -/

namespace Paths

/-- The segments of a path that name something. -/
def tidySegments (path : String) : List (List Char) := (path.toList.splitOn '/').filter fun s => s ≠ [] ∧ s ≠ ['.']

/-- The spelling with single slashes and without dots. -/
def tidy (path : String) : List Char := ['/'].intercalate (tidySegments path)

example : tidy "a//b/./c/" = "a/b/c".toList := by decide

theorem not_mem_of_mem_splitOn {l : List Char} : ∀ {s : List Char}, s ∈ l.splitOn '/' → '/' ∉ s := by
  induction l with
  | nil => simp
  | cons c l ih =>
    intro s hs
    rw [List.splitOn_cons_eq_if_modifyHead] at hs
    split at hs
    · rcases List.mem_cons.mp hs with rfl | hs
      · simp
      · exact ih hs
    · rename_i hc
      obtain ⟨first, rest, hsplit⟩ := List.exists_cons_of_ne_nil (List.splitOn_ne_nil '/' l)
      rw [hsplit] at hs ih
      rcases List.mem_cons.mp hs with rfl | hs
      · simp only [List.mem_cons, not_or]
        exact ⟨fun h => hc (by rw [h]; exact BEq.rfl), ih List.mem_cons_self⟩
      · exact ih (List.mem_cons_of_mem _ hs)

theorem not_mem_tidySegments {path : String} {s : List Char} (h : s ∈ tidySegments path) : '/' ∉ s :=
  not_mem_of_mem_splitOn (List.mem_filter.mp h).1

theorem segment_cases (s : List Char) :
    ((s = [] ∨ s = ['.']) ∧ segment s = none) ∨
      ((s ≠ [] ∧ s ≠ ['.']) ∧ (segment s = some .parentDir ∨ segment s = some (.normal s))) := by
  unfold segment
  split
  · exact .inl ⟨.inl rfl, rfl⟩
  · exact .inl ⟨.inr rfl, rfl⟩
  · exact .inr ⟨by decide, .inl rfl⟩
  · rename_i hnil hdot _
    exact .inr ⟨⟨hnil, hdot⟩, .inr rfl⟩

/-- Segments of which none is `..` are their names, without the empty ones and the dots. -/
theorem filterMap_segment_eq : ∀ (l : List (List Char)), (∀ c ∈ l.filterMap segment, c.isNormal = true) →
    l.filterMap segment = (l.filter fun s => s ≠ [] ∧ s ≠ ['.']).map Component.normal
  | [], _ => rfl
  | s :: l, h => by
    rcases segment_cases s with ⟨hs, hsegment⟩ | ⟨hs, hsegment⟩
    · rw [List.filterMap_cons_none hsegment] at h ⊢
      rw [filterMap_segment_eq l h, List.filter_cons_of_neg (by simpa [← not_or] using hs)]
    · rcases hsegment with hsegment | hsegment
      · exact absurd (h .parentDir (List.mem_filterMap.mpr ⟨s, List.mem_cons_self, hsegment⟩)) (by decide)
      · rw [List.filterMap_cons_some hsegment] at h ⊢
        rw [filterMap_segment_eq l fun c hc => h c (List.mem_cons_of_mem _ hc),
          List.filter_cons_of_pos (by simpa using hs), List.map_cons]

/-- **Where a path leads that has names only**: to the names of its tidy spelling. -/
theorem components_eq_tidySegments {path : String} (h : ∀ c ∈ components path, c.isNormal = true) :
    components path = (tidySegments path).map Component.normal := by
  unfold components at h ⊢
  unfold tidySegments
  cases hsplit : path.toList.splitOn '/' with
  | nil => exact absurd hsplit (List.splitOn_ne_nil _ _)
  | cons first rest =>
    rw [hsplit] at h
    dsimp only at h ⊢
    split_ifs at h ⊢ with habsolute hdot
    · exact absurd (h .rootDir (by simp)) (by decide)
    · exact absurd (h .curDir (by simp)) (by decide)
    · have happend : (segment first).toList ++ rest.filterMap segment = (first :: rest).filterMap segment := by
        rw [List.filterMap_cons]
        cases segment first <;> rfl
      rw [happend] at h ⊢
      exact filterMap_segment_eq _ h

theorem tidySegments_ne_nil {path : String} (hpath : path ≠ "") (h : ∀ c ∈ components path, c.isNormal = true) :
    tidySegments path ≠ [] := by
  obtain ⟨c, l, hlist⟩ := List.exists_cons_of_ne_nil (mt String.toList_eq_nil_iff.mp hpath)
  obtain ⟨first, rest, hsplit⟩ := List.exists_cons_of_ne_nil (List.splitOn_ne_nil '/' l)
  unfold components at h
  unfold tidySegments
  rw [hlist] at h ⊢
  rw [List.splitOn_cons_eq_if_modifyHead, hsplit] at h ⊢
  by_cases hc : c = '/'
  · subst hc
    exact absurd (h .rootDir (by simp)) (by decide)
  · have hbeq : ¬ (c == '/') = true := by simpa using hc
    rw [if_neg hbeq] at h ⊢
    by_cases hdot : c :: first = ['.']
    · refine absurd (h .curDir ?_) (by decide)
      simp [hc, hdot]
    · rw [List.modifyHead_cons, List.filter_cons_of_pos (by simp [hdot])]
      exact List.cons_ne_nil _ _

/-- A tidy spelling has the segments it is made of. -/
theorem splitOn_tidy {path : String} (h : tidySegments path ≠ []) : (tidy path).splitOn '/' = tidySegments path :=
  List.splitOn_intercalate '/' (fun _ hs => not_mem_tidySegments hs) h

theorem intercalate_append {a b : List (List Char)} (ha : a ≠ []) (hb : b ≠ []) :
    ['/'].intercalate (a ++ b) = ['/'].intercalate a ++ '/' :: ['/'].intercalate b := by
  induction a with
  | nil => exact absurd rfl ha
  | cons s a ih =>
    cases a with
    | nil => simp [List.intercalate_cons_of_ne_nil hb]
    | cons t a =>
      have happend : t :: a ++ b ≠ [] := by simp
      have htail : t :: a ≠ [] := by simp
      rw [List.cons_append, List.intercalate_cons_of_ne_nil happend, ih htail, List.intercalate_cons_of_ne_nil htail]
      simp only [List.append_assoc]

/-- One path names a directory above another exactly when its tidy spelling with a slash begins the other's. -/
theorem tidySegments_prefix {p q : String} (hp : tidySegments p ≠ []) (hq : tidySegments q ≠ []) :
    (tidySegments p <+: tidySegments q ∧ tidySegments p ≠ tidySegments q) ↔ tidy p ++ ['/'] <+: tidy q := by
  constructor
  · rintro ⟨⟨rest, hrest⟩, hne⟩
    have hpos : rest ≠ [] := by
      rintro rfl
      exact hne (by rw [← hrest, List.append_nil])
    refine ⟨['/'].intercalate rest, ?_⟩
    rw [List.append_assoc, List.singleton_append]
    unfold tidy
    rw [← hrest, intercalate_append hp hpos]
  · rintro ⟨rest, hrest⟩
    rw [List.append_assoc, List.singleton_append] at hrest
    have hsplit := congrArg (List.splitOn '/') hrest
    rw [List.splitOn_append_cons_self, splitOn_tidy hp, splitOn_tidy hq] at hsplit
    refine ⟨⟨_, hsplit⟩, fun heq => ?_⟩
    rw [heq] at hsplit
    exact List.splitOn_ne_nil '/' rest (List.append_right_eq_self.mp hsplit)

theorem tidySegments_eq_iff {p q : String} (hp : tidySegments p ≠ []) (hq : tidySegments q ≠ []) :
    tidySegments p = tidySegments q ↔ tidy p = tidy q := by
  refine ⟨fun h => by rw [tidy, tidy, h], fun h => ?_⟩
  rw [← splitOn_tidy hp, ← splitOn_tidy hq, h]

end Paths
/-! ## Archives -/

namespace Registry

open Paths

/-- The files land apart: distinct paths lead to distinct files, and no file is where another needs a directory. -/
structure Apart (files : List ArchiveFile) : Prop where
  distinct : ∀ f ∈ files, ∀ g ∈ files, f.path ≠ g.path → components f.path ≠ components g.path
  noDirectory : ∀ f ∈ files, ∀ g ∈ files, components f.path <+: components g.path → components f.path = components g.path

/-- **No two paths are spellings of one file, and none with a slash behind it begins another.** -/
structure TidyApart (files : List ArchiveFile) : Prop where
  distinct : ∀ f ∈ files, ∀ g ∈ files, f.path ≠ g.path → tidy f.path ≠ tidy g.path
  noDirectory : ∀ f ∈ files, ∀ g ∈ files, ¬ tidy f.path ++ ['/'] <+: tidy g.path

/-- A path that leads strictly inside the directory it is extracted to. -/
def Inside (path : String) : Prop := components path ≠ [] ∧ ∀ c ∈ components path, c.isNormal = true

theorem inside_of_portable {path : String} (h : portablePath path = true) : tidySegments path ≠ [] ∧ Inside path := by
  simp only [portablePath, Bool.and_eq_true, Bool.not_eq_true', String.isEmpty_eq_false_iff, List.all_eq_true] at h
  obtain ⟨⟨⟨hpath, -⟩, -⟩, hnormal⟩ := h
  have htidy := tidySegments_ne_nil hpath hnormal
  refine ⟨htidy, ?_, hnormal⟩
  rw [components_eq_tidySegments hnormal]
  simpa using htidy

theorem apart_iff_tidyApart {files : List ArchiveFile} (h : ∀ f ∈ files, portablePath f.path = true) :
    Apart files ↔ TidyApart files := by
  have hinj : Function.Injective (List.map Component.normal) := List.map_injective_iff.mpr fun _ _ => Component.normal.inj
  have heq : ∀ f ∈ files, ∀ g ∈ files, components f.path = components g.path ↔ tidy f.path = tidy g.path := by
    intro f hf g hg
    obtain ⟨hf', -, hnormal⟩ := inside_of_portable (h f hf)
    obtain ⟨hg', -, hnormal'⟩ := inside_of_portable (h g hg)
    rw [components_eq_tidySegments hnormal, components_eq_tidySegments hnormal', hinj.eq_iff,
      tidySegments_eq_iff hf' hg']
  have hfront : ∀ f ∈ files, ∀ g ∈ files, (components f.path <+: components g.path →
      components f.path = components g.path) ↔ ¬ tidy f.path ++ ['/'] <+: tidy g.path := by
    intro f hf g hg
    obtain ⟨hf', -, hnormal⟩ := inside_of_portable (h f hf)
    obtain ⟨hg', -, hnormal'⟩ := inside_of_portable (h g hg)
    have hmap : (tidySegments f.path).map Component.normal <+: (tidySegments g.path).map Component.normal ↔
        tidySegments f.path <+: tidySegments g.path := by
      rw [List.prefix_map_iff]
      refine ⟨fun ⟨l, hl, heq⟩ => hinj heq ▸ hl, fun hl => ⟨_, hl, rfl⟩⟩
    rw [components_eq_tidySegments hnormal, components_eq_tidySegments hnormal', hinj.eq_iff,
      ← tidySegments_prefix hf' hg', hmap, not_and_not_right]
  constructor
  · rintro ⟨hdistinct, hdirectory⟩
    exact ⟨fun f hf g hg hne => mt (heq f hf g hg).mpr (hdistinct f hf g hg hne),
      fun f hf g hg => (hfront f hf g hg).mp (hdirectory f hf g hg)⟩
  · rintro ⟨hdistinct, hdirectory⟩
    exact ⟨fun f hf g hg hne => mt (heq f hf g hg).mp (hdistinct f hf g hg hne),
      fun f hf g hg => (hfront f hf g hg).mpr (hdirectory f hf g hg)⟩

theorem Apart.perm {files files' : List ArchiveFile} (hperm : files.Perm files') (h : Apart files) : Apart files' :=
  ⟨fun f hf g hg => h.distinct f (hperm.mem_iff.mpr hf) g (hperm.mem_iff.mpr hg),
    fun f hf g hg => h.noDirectory f (hperm.mem_iff.mpr hf) g (hperm.mem_iff.mpr hg)⟩

variable {V : Type} {name : String} {version : V} {files : List ArchiveFile} {dependencies : OrdMap String String}
  {archive : PackageArchive V}

/-- What `PackageArchive::new` accepts: the files in order, each path portable and no text twice. -/
theorem new_files (h : PackageArchive.new name version files dependencies = .ok archive) :
    archive.files.Perm files ∧ (∀ f ∈ archive.files, portablePath f.path = true) ∧
      (archive.files.map (·.path)).Nodup := by
  unfold PackageArchive.new at h
  split_ifs at h
  split at h
  · cases h
  · rename_i hpaths
    cases h
    obtain ⟨hportable, hnodup, -⟩ := (checkPaths_eq_ok name version _ []).mp hpaths
    exact ⟨List.perm_insertionSort _ _, fun f hf => hportable _ (List.mem_map_of_mem hf), hnodup⟩

/-- **When the files land apart, extraction keeps each of them.** -/
theorem extracted (h : PackageArchive.new name version files dependencies = .ok archive) (hapart : Apart archive.files)
    (root : PathBuf) {f : ArchiveFile} (hf : f ∈ archive.files) :
    (archive.files.foldl (Vendor.writeFile root) .empty).get? (root ++ components f.path) = some f.content := by
  obtain ⟨-, -, hnodup⟩ := new_files h
  have hone : archive.files.filter (fun g => components g.path = components f.path) = [f] := by
    have hsame : ∀ g ∈ archive.files, components g.path = components f.path ↔ g = f := by
      intro g hg
      refine ⟨fun heq => ?_, fun heq => by rw [heq]⟩
      by_contra hne
      have hpath : g.path ≠ f.path := fun hpath => hne (List.inj_on_of_nodup_map hnodup hg hf hpath)
      exact hapart.distinct g hg f hf hpath heq
    rw [List.filter_congr fun g hg => decide_eq_decide.mpr (hsame g hg)]
    rw [List.filter_eq, List.count_eq_one_of_mem hnodup.of_map hf]
    rfl
  rw [Vendor.get?_foldl_writeFile]
  unfold Vendor.lastAt
  rw [hone]
  rfl

end Registry
end Syllog
