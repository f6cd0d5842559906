import Syllog.Package
import Syllog.AstLowerIds
import Syllog.ImportedTypes
/-!
# PackagePlan — the planned identities and the names a module sees

A member key starts with its owner's name and goes on with a character no identifier has, so keys of different owners differ,
also once an import has renamed one.  The plan gives a module's items their own indices and its members the indices after
them; a file sees its module's items and members under their own keys and those of an import under its local name.
-/
namespace Syllog
namespace Package

open Hir Ast Semantic Modules AstLower

/-! ## Keys and their owners -/

/-- The owner a member key starts with. -/
def ownerOf (key : String) : String := String.ofList (key.toList.takeWhile isIdentContinue)

theorem continue_of_identifier {name : String} (h : isIdentifier name = true) : ∀ c ∈ name.toList, isIdentContinue c = true := by
  unfold isIdentifier at h
  split at h
  · cases h
  · rename_i c cs hname
    rw [hname]
    obtain ⟨hstart, hrest⟩ := Bool.and_eq_true_iff.mp h
    intro d hd
    rcases List.mem_cons.mp hd with rfl | hd
    · unfold isIdentStart at hstart
      unfold isIdentContinue Char.isAlphanum
      rcases Bool.or_eq_true_iff.mp hstart with hs | hs
      · rw [hs]
        rfl
      · rw [hs, Bool.or_true]
    · exact List.all_eq_true.mp hrest d hd

theorem ownerOf_append {owner : String} (h : isIdentifier owner = true) {rest : List Char}
    (hrest : rest.takeWhile isIdentContinue = []) (key : String) (hkey : key.toList = owner.toList ++ rest) :
    ownerOf key = owner := by
  unfold ownerOf
  rw [hkey, List.takeWhile_append_of_pos (continue_of_identifier h), hrest, List.append_nil, String.ofList_toList]

theorem renameMemberOwner_append {owner : String} {rest : List Char} {key : String} (hkey : key.toList = owner.toList ++ rest)
    (aliasName : String) : (renameMemberOwner key owner aliasName).toList = aliasName.toList ++ rest := by
  unfold renameMemberOwner
  rw [if_pos (hkey ▸ List.prefix_append _ _), hkey, List.drop_left, String.toList_append, String.toList_ofList]

/-- A member key is its owner's name, then what no identifier goes on with. -/
theorem memberKeys_split {item : Item} {key : String} (h : key ∈ memberKeys item) :
    ∃ rest, key.toList = item.name.toList ++ rest ∧ rest.takeWhile isIdentContinue = [] := by
  have hfield : ∀ name, (fieldKey item.name name).toList = item.name.toList ++ ('.' :: name.toList) ∧
      ('.' :: name.toList).takeWhile isIdentContinue = [] := fun name => by
    refine ⟨?_, by simp [isIdentContinue]⟩
    unfold fieldKey
    rw [String.toList_append, String.toList_append, List.append_assoc]
    rfl
  have hvariant : ∀ name, (variantKey item.name name).toList = item.name.toList ++ (':' :: ':' :: name.toList) ∧
      (':' :: ':' :: name.toList).takeWhile isIdentContinue = [] := fun name => by
    refine ⟨?_, by simp [isIdentContinue]⟩
    unfold variantKey
    rw [String.toList_append, String.toList_append, List.append_assoc]
    rfl
  cases item with
  | struct node =>
    obtain ⟨field, -, rfl⟩ := List.mem_map.mp h
    exact ⟨_, hfield field.name⟩
  | enum node =>
    obtain ⟨variant, -, rfl⟩ := List.mem_map.mp h
    exact ⟨_, hvariant variant.name⟩
  | state node =>
    obtain ⟨field, -, rfl⟩ := List.mem_map.mp h
    exact ⟨_, hfield field.name⟩
  | function node => cases h
  | agent node => cases h
  | pipeline node => cases h
  | safetyBound node => cases h

theorem ownerOf_memberKey {item : Item} (hname : isIdentifier item.name = true) {key : String} (h : key ∈ memberKeys item) :
    ownerOf key = item.name := by
  obtain ⟨rest, hkey, hrest⟩ := memberKeys_split h
  exact ownerOf_append hname hrest key hkey

theorem ownerOf_rename {item : Item} {aliasName : String} (halias : isIdentifier aliasName = true) {key : String}
    (h : key ∈ memberKeys item) : ownerOf (renameMemberOwner key item.name aliasName) = aliasName := by
  obtain ⟨rest, hkey, hrest⟩ := memberKeys_split h
  exact ownerOf_append halias hrest _ (renameMemberOwner_append hkey aliasName)

theorem rename_injective {item : Item} {aliasName key key' : String} (h : key ∈ memberKeys item) (h' : key' ∈ memberKeys item)
    (heq : renameMemberOwner key item.name aliasName = renameMemberOwner key' item.name aliasName) : key = key' := by
  obtain ⟨rest, hkey, -⟩ := memberKeys_split h
  obtain ⟨rest', hkey', -⟩ := memberKeys_split h'
  have hrest := congrArg String.toList heq
  rw [renameMemberOwner_append hkey, renameMemberOwner_append hkey'] at hrest
  rw [← String.toList_inj, hkey, hkey', List.append_cancel_left hrest]

/-! ## The plan -/

theorem ownMembers_get (members : OrdMap (String ×ₗ String) DefId) (name key : String) :
    (ownMembers members name).get? key = members.get? (toLex (name, key)) := by
  cases hget : members.get? (toLex (name, key)) with
  | some d =>
    refine OrdMap.get?_ofList ?_ (List.mem_map.mpr ⟨(toLex (name, key), d), List.mem_filter.mpr
      ⟨OrdMap.get?_eq_some_iff.mp hget, decide_eq_true rfl⟩, rfl⟩)
    rw [List.Nodup, List.map_map, List.pairwise_map]
    refine (members.sorted.filter _).imp_of_mem fun {a b} ha hb hab heq => ?_
    have ha' := of_decide_eq_true (List.mem_filter.mp ha).2
    have hb' := of_decide_eq_true (List.mem_filter.mp hb).2
    have hkeys : a.1 = b.1 := ofLex.injective (Prod.ext (ha'.trans hb'.symm) heq)
    exact absurd hkeys (ne_of_lt hab)
  | none =>
    refine OrdMap.get?_ofList_eq_none fun hmem => ?_
    rw [List.map_map] at hmem
    obtain ⟨e, he, rfl⟩ := List.mem_map.mp hmem
    obtain ⟨he, hname⟩ := List.mem_filter.mp he
    have hkey : e.1 = toLex (name, (ofLex e.1).2) := ofLex.injective (Prod.ext (of_decide_eq_true hname) rfl)
    rw [show (toLex (name, ((Prod.fst ∘ fun e : (String ×ₗ String) × DefId => ((ofLex e.1).2, e.2)) e)) : String ×ₗ String) = e.1
      from hkey.symm, OrdMap.get?_eq_some_iff.mpr (show (e.1, e.2) ∈ members.entries from he)] at hget
    cases hget

theorem ownMembers_insert (members : OrdMap (String ×ₗ String) DefId) (name key : String) (d : DefId) :
    ownMembers (members.insert (toLex (name, key)) d) name = (ownMembers members name).insert key d := by
  refine OrdMap.ext_get? fun k => ?_
  rw [ownMembers_get, OrdMap.get?_insert, OrdMap.get?_insert, ownMembers_get]
  by_cases hk : key = k
  · rw [if_pos hk, if_pos (by rw [hk])]
  · rw [if_neg hk, if_neg fun h => hk (congrArg (fun p => (ofLex p).2) h)]

theorem planMembers_get_ne {name : String} {k : Nat} {p : String ×ₗ String} (hp : (ofLex p).1 ≠ name) :
    ∀ {keys : List String} {members : OrdMap (String ×ₗ String) DefId} {next : Nat},
      (planMembers name k keys members next).1.get? p = members.get? p
  | [], _, _ => rfl
  | key :: keys, members, next => by
    have ih := @planMembers_get_ne name k p hp keys (members.insert (toLex (name, key)) ⟨k, next⟩) (next + 1)
    unfold planMembers at ih ⊢
    rw [List.foldl_cons, ih, OrdMap.get?_insert, if_neg fun h => hp (by rw [← h]; rfl)]

theorem planMembers_given {name : String} {k first : Nat} : ∀ {keys : List String}
    {members : OrdMap (String ×ₗ String) DefId} {next : Nat}, Given k first (ownMembers members name, next) →
      Given k first (ownMembers (planMembers name k keys members next).1 name, (planMembers name k keys members next).2)
  | [], _, _, h => h
  | key :: keys, members, next, h => by
    refine @planMembers_given name k first keys (members.insert (toLex (name, key)) ⟨k, next⟩) (next + 1) ?_
    rw [ownMembers_insert]
    exact h.insert key

theorem planMembers_contains {name : String} {k : Nat} {key : String} : ∀ {keys : List String}
    {members : OrdMap (String ×ₗ String) DefId} {next : Nat}, key ∈ keys ∨ (∃ d, members.get? (toLex (name, key)) = some d) →
      ∃ d, (planMembers name k keys members next).1.get? (toLex (name, key)) = some d
  | [], _, _, h => by
    rcases h with h | h
    · cases h
    · exact h
  | key' :: keys, members, next, h => by
    refine @planMembers_contains name k key keys (members.insert (toLex (name, key')) ⟨k, next⟩) (next + 1) ?_
    rw [OrdMap.get?_insert]
    by_cases heq : key' = key
    · exact .inr ⟨⟨k, next⟩, if_pos (by rw [heq])⟩
    · rcases h with h | h
      · exact .inl ((List.mem_cons.mp h).resolve_left fun h => heq h.symm)
      · exact .inr (by rwa [if_neg fun h => heq (congrArg (fun p => (ofLex p).2) h)])

/-- What the plan holds of a module: its items under their own indices, its members from there on, each key with one. -/
structure Plans (asts : OrdMap String SourceFile) (plan : IdentityPlan) (m : ResolvedModule) : Prop where
  top : ∀ name d, m.definitions.get? name = some d → plan.topLevel.get? (toLex (m.name, name)) = some ⟨m.id, d.id.index⟩
  members : ∃ next, plan.nextByModule.get? m.id = some next ∧
    Given m.id m.definitions.entries.length (ownMembers plan.members m.name, next)
  keys : ∀ key ∈ moduleKeys asts m.files, ∃ d, plan.members.get? (toLex (m.name, key)) = some d

section
variable {asts : OrdMap String SourceFile} {plan : IdentityPlan} {m m' : ResolvedModule}

theorem planModule_plans (hnames : ∀ name d, m.definitions.get? name = some d → d.name = name)
    (hnew : ∀ key, plan.members.get? (toLex (m.name, key)) = none) : Plans asts (planModule asts plan m) m := by
  refine ⟨fun name d hd => ?_, ⟨_, by rw [planModule, OrdMap.get?_insert, if_pos rfl], ?_⟩,
    fun key hkey => planMembers_contains (.inl hkey)⟩
  · have hfold : ∀ (ds : List ModuleDefinition) (ids : OrdMap (String ×ₗ String) DefId),
        ds.foldl (fun ids d => ids.insert (toLex (m.name, d.name)) ⟨m.id, d.id.index⟩) ids =
          (ds.map fun d => (toLex (m.name, d.name), (⟨m.id, d.id.index⟩ : DefId))).foldl (fun ids e => ids.insert e.1 e.2) ids :=
      fun ds ids => by rw [List.foldl_map]
    show (List.foldl _ plan.topLevel m.definitions.values).get? _ = _
    rw [hfold]
    have hentry := OrdMap.get?_eq_some_iff.mp hd
    refine OrdMap.get?_foldl_insert ?_ (.inl ?_)
    · rw [List.map_map, OrdMap.values, List.map_map, List.Nodup, List.pairwise_map]
      refine m.definitions.sorted.imp_of_mem fun {a b} ha hb hab heq => ?_
      have hname : a.2.name = b.2.name := congrArg (fun p => (ofLex p).2) heq
      rw [hnames a.1 a.2 (OrdMap.get?_eq_some_iff.mpr ha), hnames b.1 b.2 (OrdMap.get?_eq_some_iff.mpr hb)] at hname
      exact absurd hname (ne_of_lt hab)
    · refine List.mem_map.mpr ⟨d, List.mem_map.mpr ⟨(name, d), hentry, rfl⟩, ?_⟩
      rw [hnames name d hd]
  · refine planMembers_given ?_
    have hempty : ownMembers plan.members m.name = OrdMap.empty :=
      OrdMap.ext_get? fun key => by rw [ownMembers_get, hnew, OrdMap.get?_empty]
    rw [hempty]
    exact Given.empty _ _

/-- Planning another module changes nothing for this one. -/
theorem Plans.skip (h : Plans asts plan m) (hname : m'.name ≠ m.name) (hid : m'.id ≠ m.id) :
    Plans asts (planModule asts plan m') m := by
  have hmembers : ∀ key, (planModule asts plan m').members.get? (toLex (m.name, key)) = plan.members.get? (toLex (m.name, key)) :=
    fun key => planMembers_get_ne fun h => hname h.symm
  have hown : ownMembers (planModule asts plan m').members m.name = ownMembers plan.members m.name :=
    OrdMap.ext_get? fun key => by rw [ownMembers_get, ownMembers_get, hmembers]
  refine ⟨fun name d hd => ?_, ?_, fun key hkey => by rw [hmembers]; exact h.keys key hkey⟩
  · rw [← h.top name d hd]
    have hkept : ∀ (ds : List ModuleDefinition) (ids : OrdMap (String ×ₗ String) DefId),
        (ds.foldl (fun ids d => ids.insert (toLex (m'.name, d.name)) (⟨m'.id, d.id.index⟩ : DefId)) ids).get?
          (toLex (m.name, name)) = ids.get? (toLex (m.name, name)) := by
      intro ds
      induction ds with
      | nil => exact fun _ => rfl
      | cons d ds ih =>
        intro ids
        rw [List.foldl_cons, ih, OrdMap.get?_insert, if_neg fun h => hname (congrArg (fun p => (ofLex p).1) h)]
    exact hkept _ _
  · obtain ⟨next, hnext, hgiven⟩ := h.members
    refine ⟨next, ?_, hown ▸ hgiven⟩
    show (plan.nextByModule.insert m'.id _).get? m.id = _
    rw [OrdMap.get?_insert, if_neg hid, hnext]

/-- **What planning a module establishes holds of every module in the end**, where planning another keeps it: the modules have
distinct names and numbers. -/
theorem foldl_each {Q : IdentityPlan → ResolvedModule → Prop}
    (hplan : ∀ plan m, (∀ name d, m.definitions.get? name = some d → d.name = name) →
      (∀ key, plan.members.get? (toLex (m.name, key)) = none) → Q (planModule asts plan m) m)
    (hskip : ∀ plan m m', m'.name ≠ m.name → m'.id ≠ m.id → Q plan m → Q (planModule asts plan m') m) :
    ∀ {ms : List ResolvedModule} {plan : IdentityPlan}, (ms.map (·.name)).Nodup → (ms.map (·.id)).Nodup →
    (∀ m ∈ ms, ∀ name d, m.definitions.get? name = some d → d.name = name) →
    (∀ m ∈ ms, ∀ key, plan.members.get? (toLex (m.name, key)) = none) →
      ∀ m ∈ ms, Q (ms.foldl (planModule asts) plan) m
  | m' :: ms, plan, hnames, hids, hdefs, hnew, m, hm => by
    rw [List.map_cons, List.nodup_cons] at hnames hids
    have hne : ∀ m ∈ ms, m.name ≠ m'.name ∧ m.id ≠ m'.id := fun m hm =>
      ⟨fun h => hnames.1 (h ▸ List.mem_map_of_mem hm), fun h => hids.1 (h ▸ List.mem_map_of_mem hm)⟩
    rw [List.foldl_cons]
    rcases List.mem_cons.mp hm with rfl | hm
    · refine List.foldlRecOn (motive := fun plan => Q plan m) ms _ (hplan plan m (hdefs m hm) (hnew m hm))
        fun plan hq other hother => ?_
      exact hskip plan m other (hne other hother).1 (hne other hother).2 hq
    · refine foldl_each hplan hskip hnames.2 hids.2 (fun m hm => hdefs m (List.mem_cons_of_mem _ hm)) (fun m hm key => ?_) m hm
      rw [← hnew m (List.mem_cons_of_mem _ hm) key]
      exact planMembers_get_ne (p := toLex (m.name, key)) (hne m hm).1

end

/-! ## The modules of a graph -/

section
variable {ids : OrdMap String Nat} {sources : List ModuleSource} {modules : ModuleMap}

theorem mem_values_iff {m : ResolvedModule} : m ∈ modules.values ↔ ∃ k, modules.get? k = some m := by
  constructor
  · intro h
    obtain ⟨⟨k, m'⟩, he, rfl⟩ := List.mem_map.mp h
    exact ⟨k, OrdMap.get?_eq_some_iff.mpr he⟩
  · rintro ⟨k, hk⟩
    exact List.mem_map.mpr ⟨_, OrdMap.get?_eq_some_iff.mp hk, rfl⟩

theorem nodup_ids (hgraph : Graph ids sources modules) : (modules.values.map (·.id)).Nodup := by
  rw [OrdMap.values, List.map_map, List.Nodup, List.pairwise_map]
  refine modules.sorted.imp_of_mem fun {a b} ha hb hab heq => ?_
  have hids : a.2.id = b.2.id := heq
  rw [hgraph.id a.1 a.2 (OrdMap.get?_eq_some_iff.mpr ha), hgraph.id b.1 b.2 (OrdMap.get?_eq_some_iff.mpr hb)] at hids
  exact absurd hids (ne_of_lt hab)

theorem nodup_names (hgraph : Graph ids sources modules) : (modules.values.map (·.name)).Nodup := by
  rw [OrdMap.values, List.map_map, List.Nodup, List.pairwise_map]
  refine modules.sorted.imp_of_mem fun {a b} ha hb hab heq => ?_
  have hnames : a.2.name = b.2.name := heq
  have hka := hgraph.name a.1 a.2 (OrdMap.get?_eq_some_iff.mpr ha)
  rw [hnames, hgraph.name b.1 b.2 (OrdMap.get?_eq_some_iff.mpr hb)] at hka
  exact absurd (Option.some.inj hka).symm (ne_of_lt hab)

theorem definition_name (hgraph : Graph ids sources modules) {k : Nat} {m : ResolvedModule} (hm : modules.get? k = some m)
    {name : String} {d : ModuleDefinition} (hd : m.definitions.get? name = some d) : d.name = name := by
  obtain ⟨j, p, -, hp, rfl⟩ := ((hgraph.definitions k m hm).get_iff name d).mp hd
  exact hp

theorem find_id (hgraph : Graph ids sources modules) {k : Nat} {m : ResolvedModule} (hm : modules.get? k = some m) :
    modules.values.find? (·.id = k) = some m := by
  have hfind := OrdMap.find?_of_nodup (nodup_ids hgraph) (mem_values_iff.mpr ⟨k, hm⟩)
  rwa [hgraph.id k m hm] at hfind

theorem find_name (hgraph : Graph ids sources modules) {k : Nat} {m : ResolvedModule} (hm : modules.get? k = some m) :
    modules.values.find? (·.name = m.name) = some m :=
  OrdMap.find?_of_nodup (nodup_names hgraph) (mem_values_iff.mpr ⟨k, hm⟩)

/-- The same for the modules of a graph. -/
theorem graph_each (hgraph : Graph ids sources modules) {asts : OrdMap String SourceFile} {analysis : ModuleAnalysis}
    (hmodules : analysis.modules = modules.values) {Q : IdentityPlan → ResolvedModule → Prop}
    (hplan : ∀ plan m, (∀ name d, m.definitions.get? name = some d → d.name = name) →
      (∀ key, plan.members.get? (toLex (m.name, key)) = none) → Q (planModule asts plan m) m)
    (hskip : ∀ plan m m', m'.name ≠ m.name → m'.id ≠ m.id → Q plan m → Q (planModule asts plan m') m) {k : Nat}
    {m : ResolvedModule} (hm : modules.get? k = some m) : Q (planIdentities analysis asts) m := by
  unfold planIdentities
  rw [hmodules]
  refine foldl_each hplan hskip (nodup_names hgraph) (nodup_ids hgraph) (fun m' hm' name d hd => ?_) (fun m' hm' key => rfl) m
    (mem_values_iff.mpr ⟨k, hm⟩)
  obtain ⟨k', hk'⟩ := mem_values_iff.mp hm'
  exact definition_name hgraph hk' hd

theorem plans_graph (hgraph : Graph ids sources modules) {asts : OrdMap String SourceFile} {analysis : ModuleAnalysis}
    (hmodules : analysis.modules = modules.values) {k : Nat} {m : ResolvedModule} (hm : modules.get? k = some m) :
    Plans asts (planIdentities analysis asts) m :=
  graph_each hgraph hmodules (fun _ _ hnames hnew => planModule_plans hnames hnew)
    (fun _ _ _ hname hid hplans => hplans.skip hname hid) hm

end

/-! ## The names of a module -/

/-- The names a file declares are identifiers. -/
def Named (ast : SourceFile) : Prop :=
  (∀ item ∈ ast.items, isIdentifier item.name = true) ∧
    ∀ node ∈ ast.imports, ∀ aliasName ∈ node.aliasName, isIdentifier aliasName = true

section
variable {asts : OrdMap String SourceFile} {analysis : ModuleAnalysis} {plan : IdentityPlan} {file : String}

/-- Entering the members of one owner under another name leaves the keys of all other owners. -/
theorem enterMembers_frame {item : Item} {name localName : String} (hlocal : isIdentifier localName = true) {key : String}
    (hkey : ownerOf key ≠ localName) : ∀ {keys : List String} {members : OrdMap String DefId},
      (∀ k ∈ keys, k ∈ memberKeys item) →
        (keys.foldl (fun members key => match plan.members.get? (toLex (name, key)) with
          | some id => members.insert (renameMemberOwner key item.name localName) id
          | none    => members) members).get? key = members.get? key
  | [], _, _ => rfl
  | k :: keys, members, hkeys => by
    rw [List.foldl_cons, enterMembers_frame hlocal hkey fun k hk => hkeys k (List.mem_cons_of_mem _ hk)]
    split
    · rw [OrdMap.get?_insert, if_neg]
      rintro rfl
      exact hkey (ownerOf_rename hlocal (hkeys k List.mem_cons_self))
    · rfl

theorem enterMembers_get {item : Item} {name localName key : String} (hkey : key ∈ memberKeys item) {id : DefId}
    (hid : plan.members.get? (toLex (name, key)) = some id) : ∀ {keys : List String} {members : OrdMap String DefId},
      (∀ k ∈ keys, k ∈ memberKeys item) →
      (key ∈ keys ∨ members.get? (renameMemberOwner key item.name localName) = some id) →
        (keys.foldl (fun members key => match plan.members.get? (toLex (name, key)) with
          | some id => members.insert (renameMemberOwner key item.name localName) id
          | none    => members) members).get? (renameMemberOwner key item.name localName) = some id
  | [], _, _, h => by
    rcases h with h | h
    · cases h
    · exact h
  | k :: keys, members, hkeys, h => by
    rw [List.foldl_cons]
    refine enterMembers_get hkey hid (fun k hk => hkeys k (List.mem_cons_of_mem _ hk)) ?_
    by_cases heq : k = key
    · subst heq
      rw [hid]
      exact .inr (by simp)
    · rcases h with h | h
      · exact .inl ((List.mem_cons.mp h).resolve_left fun h => heq h.symm)
      · refine .inr ?_
        split
        · rw [OrdMap.get?_insert, if_neg fun hr => heq (rename_injective (hkeys k List.mem_cons_self) hkey hr)]
          exact h
        · exact h

theorem planImport_frame {names : PlannedNames} {i : ResolvedImport} (hlocal : isIdentifier i.localName = true) :
    (∀ name, name ≠ i.localName → (planImport asts analysis plan file names i).globals.get? name = names.globals.get? name) ∧
      ∀ key, ownerOf key ≠ i.localName →
        (planImport asts analysis plan file names i).members.get? key = names.members.get? key := by
  unfold planImport
  split
  · exact ⟨fun _ _ => rfl, fun _ _ => rfl⟩
  rename_i target htarget
  have hglobals : ∀ name, name ≠ i.localName →
      (names.globals.insert i.localName ⟨i.definition.module, i.definition.index⟩).get? name = names.globals.get? name :=
    fun name hname => by rw [OrdMap.get?_insert, if_neg fun h => hname h.symm]
  simp only
  split
  · exact ⟨hglobals, fun _ _ => rfl⟩
  split
  · exact ⟨hglobals, fun _ _ => rfl⟩
  rename_i item hitem
  refine ⟨hglobals, fun key hkey => ?_⟩
  obtain ⟨ast, -, hfind⟩ := Option.bind_eq_some_iff.mp hitem
  have hname : item.name = target.name := by simpa using List.find?_some hfind
  rw [← hname]
  exact enterMembers_frame hlocal hkey fun _ hk => hk

theorem planImports_frame : ∀ {is : List ResolvedImport} {names : PlannedNames},
    (∀ i ∈ is, isIdentifier i.localName = true) →
    (∀ name, name ∉ is.map (·.localName) →
      (is.foldl (planImport asts analysis plan file) names).globals.get? name = names.globals.get? name) ∧
      ∀ key, ownerOf key ∉ is.map (·.localName) →
        (is.foldl (planImport asts analysis plan file) names).members.get? key = names.members.get? key
  | [], _, _ => ⟨fun _ _ => rfl, fun _ _ => rfl⟩
  | i :: is, names, h => by
    obtain ⟨hglobals, hmembers⟩ := @planImport_frame asts analysis plan file names i (h i List.mem_cons_self)
    obtain ⟨hglobals', hmembers'⟩ := @planImports_frame is (planImport asts analysis plan file names i)
      fun i hi => h i (List.mem_cons_of_mem _ hi)
    rw [List.foldl_cons]
    refine ⟨fun name hname => ?_, fun key hkey => ?_⟩
    · rw [List.map_cons, List.mem_cons, not_or] at hname
      rw [hglobals' name hname.2, hglobals name hname.1]
    · rw [List.map_cons, List.mem_cons, not_or] at hkey
      rw [hmembers' key hkey.2, hmembers key hkey.1]

/-- The names of an import are those it was entered with. -/
theorem planImports_enters {is : List ResolvedImport} (hnodup : (is.map (·.localName)).Nodup)
    (h : ∀ i ∈ is, isIdentifier i.localName = true) {i : ResolvedImport} (hi : i ∈ is) (names : PlannedNames) :
    ∃ before, (is.foldl (planImport asts analysis plan file) names).globals.get? i.localName =
        (planImport asts analysis plan file before i).globals.get? i.localName ∧
      ∀ key, ownerOf key = i.localName → (is.foldl (planImport asts analysis plan file) names).members.get? key =
        (planImport asts analysis plan file before i).members.get? key := by
  obtain ⟨pre, post, rfl⟩ := List.append_of_mem hi
  rw [List.map_append, List.map_cons, List.nodup_append] at hnodup
  have hout : i.localName ∉ post.map (·.localName) := (List.nodup_cons.mp hnodup.2.1).1
  obtain ⟨hglobals, hmembers⟩ := @planImports_frame asts analysis plan file post
    (planImport asts analysis plan file (pre.foldl (planImport asts analysis plan file) names) i)
    fun i hi => h i (List.mem_append_right _ (List.mem_cons_of_mem _ hi))
  refine ⟨pre.foldl (planImport asts analysis plan file) names, ?_, fun key hkey => ?_⟩
  · rw [List.foldl_append, List.foldl_cons, hglobals _ hout]
  · rw [List.foldl_append, List.foldl_cons, hmembers _ (hkey ▸ hout)]

end

/-! ## The target of an import -/

section
variable {ids : OrdMap String Nat} {asts : OrdMap String SourceFile} {modules : ModuleMap} {analysis : ModuleAnalysis}

theorem get_ast {source : ModuleSource} (hs : source ∈ moduleSources asts) : asts.get? source.file = some source.ast := by
  obtain ⟨e, he, rfl⟩ := List.mem_map.mp hs
  exact OrdMap.get?_eq_some_iff.mpr he

theorem nodup_files (asts : OrdMap String SourceFile) : ((moduleSources asts).map (·.file)).Nodup := by
  rw [moduleSources, List.map_map]
  exact asts.nodup_keys

theorem nodup_definition_ids {k : Nat} {items : List (String × Item)} {definitions : OrdMap String ModuleDefinition}
    (h : Defined k items definitions) : (definitions.values.map (·.id)).Nodup := by
  rw [OrdMap.values, List.map_map, List.Nodup, List.pairwise_map]
  refine definitions.sorted.imp_of_mem fun {a b} ha hb hab heq => ?_
  obtain ⟨j, p, hp, hname, hd⟩ := (h.get_iff a.1 a.2).mp (OrdMap.get?_eq_some_iff.mpr ha)
  obtain ⟨j', p', hp', hname', hd'⟩ := (h.get_iff b.1 b.2).mp (OrdMap.get?_eq_some_iff.mpr hb)
  have hids : a.2.id = b.2.id := heq
  rw [hd, hd'] at hids
  cases hids
  cases hp.symm.trans hp'
  exact absurd (hname.symm.trans hname') (ne_of_lt hab)

theorem findDefinition_eq (hgraph : Graph ids (moduleSources asts) modules) (hmodules : analysis.modules = modules.values)
    {k j : Nat} {t : ResolvedModule} (ht : modules.get? k = some t) {p : String × Item}
    (hp : (itemsIn ids k (moduleSources asts))[j]? = some p) :
    findDefinition analysis ⟨k, j⟩ = some (moduleDefinition k j p.1 p.2) := by
  have hdefined := hgraph.definitions k t ht
  have hget : t.definitions.get? p.2.name = some (moduleDefinition k j p.1 p.2) :=
    (hdefined.get_iff _ _).mpr ⟨j, p, hp, rfl, rfl⟩
  have hmem : moduleDefinition k j p.1 p.2 ∈ t.definitions.values :=
    List.mem_map.mpr ⟨_, OrdMap.get?_eq_some_iff.mp hget, rfl⟩
  unfold findDefinition
  rw [hmodules, find_id hgraph ht, Option.bind_some]
  exact OrdMap.find?_of_nodup (nodup_definition_ids hdefined) hmem

theorem find_item (hgraph : Graph ids (moduleSources asts) modules) {k j : Nat} {t : ResolvedModule}
    (ht : modules.get? k = some t) {p : String × Item} (hp : (itemsIn ids k (moduleSources asts))[j]? = some p) :
    (asts.get? p.1).bind (fun ast => ast.items.find? (·.name = p.2.name)) = some p.2 := by
  obtain ⟨source, hs, hk, hfile, hitem⟩ := mem_itemsIn.mp (List.mem_of_getElem? hp)
  rw [hfile, get_ast hs, Option.bind_some]
  have hsome : (source.ast.items.find? (·.name = p.2.name)).isSome = true :=
    List.find?_isSome.mpr ⟨p.2, hitem, decide_eq_true rfl⟩
  obtain ⟨found, hfound⟩ := Option.isSome_iff_exists.mp hsome
  have hname : found.name = p.2.name := by simpa using List.find?_some hfound
  have hmem : (p.1, found) ∈ itemsIn ids k (moduleSources asts) :=
    mem_itemsIn.mpr ⟨source, hs, hk, hfile, List.mem_of_find?_eq_some hfound⟩
  have heq := List.inj_on_of_nodup_map (hgraph.definitions k t ht).nodup hmem (List.mem_of_getElem? hp) hname
  rw [hfound]
  exact congrArg (fun q : String × Item => some q.2) heq

/-- What an import names: the item of a module, by its place there. -/
structure Targets (ids : OrdMap String Nat) (sources : List ModuleSource) (modules : ModuleMap) (i : ResolvedImport)
    (k j : Nat) (t : ResolvedModule) (p : String × Item) : Prop where
  module : modules.get? k = some t
  item : (itemsIn ids k sources)[j]? = some p
  definition : i.definition = ⟨k, j⟩

theorem exists_targets {sources : List ModuleSource} (hgraph : Graph ids sources modules) {k : Nat} {m : ResolvedModule}
    (hm : modules.get? k = some m) {localName : String} {i : ResolvedImport} (hi : m.imports.get? localName = some i) :
    i.localName = localName ∧ ∃ k' j t p, Targets ids sources modules i k' j t p := by
  obtain ⟨source, hs, hk, node, hnode, symbol, target, t, d, hsymbol, htarget, ht, hd, -, hlocal, rfl⟩ :=
    (hgraph.imports k m hm localName i).mp hi
  obtain ⟨j, p, hp, -, rfl⟩ := ((hgraph.definitions target t ht).get_iff symbol d).mp hd
  exact ⟨rfl, target, j, t, p, ht, hp, rfl⟩

theorem identifier_item (hnamed : ∀ source ∈ moduleSources asts, Named source.ast) {k : Nat} {p : String × Item}
    (hp : p ∈ itemsIn ids k (moduleSources asts)) : isIdentifier p.2.name = true := by
  obtain ⟨source, hs, -, -, hitem⟩ := mem_itemsIn.mp hp
  exact (hnamed source hs).1 p.2 hitem

theorem identifier_import (hgraph : Graph ids (moduleSources asts) modules)
    (hnamed : ∀ source ∈ moduleSources asts, Named source.ast) {k : Nat} {m : ResolvedModule} (hm : modules.get? k = some m)
    {localName : String} {i : ResolvedImport} (hi : m.imports.get? localName = some i) : isIdentifier localName = true := by
  obtain ⟨source, hs, hk, node, hnode, symbol, target, t, d, hsymbol, htarget, ht, hd, -, rfl, rfl⟩ :=
    (hgraph.imports k m hm localName i).mp hi
  cases halias : node.aliasName with
  | some aliasName => exact (hnamed source hs).2 node hnode aliasName halias
  | none =>
    obtain ⟨j, p, hp, hname, -⟩ := ((hgraph.definitions target t ht).get_iff symbol d).mp hd
    rw [Option.getD_none, ← hname]
    exact identifier_item hnamed (List.mem_of_getElem? hp)

/-! ## What a module sees -/

variable {plan : IdentityPlan} {file : String}

theorem planImport_eq (hgraph : Graph ids (moduleSources asts) modules) (hmodules : analysis.modules = modules.values)
    {i : ResolvedImport} {k j : Nat} {t : ResolvedModule} {p : String × Item}
    (htargets : Targets ids (moduleSources asts) modules i k j t p) (names : PlannedNames) :
    planImport asts analysis plan file names i =
      { globals := names.globals.insert i.localName ⟨k, j⟩
        members := (memberKeys p.2).foldl (fun members key => match plan.members.get? (toLex (t.name, key)) with
          | some id => members.insert (renameMemberOwner key p.2.name i.localName) id
          | none    => members) names.members
        diagnostics := names.diagnostics } := by
  have hfind : (asts.get? (moduleDefinition k j p.1 p.2).file).bind
      (fun ast => ast.items.find? (·.name = (moduleDefinition k j p.1 p.2).name)) = some p.2 :=
    find_item hgraph htargets.module htargets.item
  unfold planImport
  rw [htargets.definition, findDefinition_eq hgraph hmodules htargets.module htargets.item]
  simp only [hmodules, find_id hgraph htargets.module, hfind]
  rfl

/-- What the names planned for a module hold. -/
structure Sees (ids : OrdMap String Nat) (sources : List ModuleSource) (modules : ModuleMap) (plan : IdentityPlan) (k : Nat)
    (m : ResolvedModule) (names : PlannedNames) : Prop where
  own : ∀ name d, m.definitions.get? name = some d → names.globals.get? name = some ⟨k, d.id.index⟩
  imported : ∀ localName i, m.imports.get? localName = some i →
    names.globals.get? localName = some ⟨i.definition.module, i.definition.index⟩
  members : ∀ p ∈ itemsIn ids k sources, ∀ key ∈ memberKeys p.2,
    ∃ id, plan.members.get? (toLex (m.name, key)) = some id ∧ names.members.get? key = some id
  importedMembers : ∀ localName i k' j t p, m.imports.get? localName = some i → Targets ids sources modules i k' j t p →
    ∀ key ∈ memberKeys p.2, ∃ id, plan.members.get? (toLex (t.name, key)) = some id ∧
      names.members.get? (renameMemberOwner key p.2.name localName) = some id

theorem planImports_diagnostics (hgraph : Graph ids (moduleSources asts) modules)
    (hmodules : analysis.modules = modules.values) : ∀ {is : List ResolvedImport} {names : PlannedNames},
      (∀ i ∈ is, ∃ k j t p, Targets ids (moduleSources asts) modules i k j t p) →
        (is.foldl (planImport asts analysis plan file) names).diagnostics = names.diagnostics
  | [], _, _ => rfl
  | i :: is, names, h => by
    obtain ⟨k, j, t, p, htargets⟩ := h i List.mem_cons_self
    rw [List.foldl_cons, planImports_diagnostics hgraph hmodules fun i hi => h i (List.mem_cons_of_mem _ hi),
      planImport_eq hgraph hmodules htargets]

theorem mem_moduleKeys (hgraph : Graph ids (moduleSources asts) modules) {k : Nat} {m : ResolvedModule}
    (hm : modules.get? k = some m) {p : String × Item} (hp : p ∈ itemsIn ids k (moduleSources asts)) {key : String}
    (hkey : key ∈ memberKeys p.2) : key ∈ moduleKeys asts m.files := by
  obtain ⟨source, hs, hk, -, hitem⟩ := mem_itemsIn.mp hp
  unfold moduleKeys
  rw [hgraph.files k m hm]
  refine List.mem_flatMap.mpr ⟨source.file, List.mem_map.mpr ⟨source, List.mem_filter.mpr ⟨hs, hk⟩, rfl⟩, ?_⟩
  rw [get_ast hs]
  exact List.mem_flatMap.mpr ⟨p.2, hitem, hkey⟩

theorem ownGlobals_get {m : ResolvedModule} {k : Nat} (hplans : Plans asts plan m) (hid : m.id = k) {name : String}
    {d : ModuleDefinition} (hd : m.definitions.get? name = some d) :
    (ownGlobals plan m m.name).get? name = some ⟨k, d.id.index⟩ := by
  refine OrdMap.get?_ofList (OrdMap.nodup_map_filterMap (fun name : String => name) (fun name e he => ?_) ?_)
    (List.mem_filterMap.mpr ⟨name, OrdMap.mem_keys_iff.mpr ⟨d, hd⟩, ?_⟩)
  · obtain ⟨id, -, rfl⟩ := Option.map_eq_some_iff.mp he
    rfl
  · rw [List.map_id']
    exact m.definitions.nodup_keys
  · rw [hplans.top name d hd, hid]
    rfl

/-- **A module sees its own items and members, and those of its imports under their local names.** -/
theorem plannedNames_sees (hgraph : Graph ids (moduleSources asts) modules) (hmodules : analysis.modules = modules.values)
    (hnamed : ∀ source ∈ moduleSources asts, Named source.ast) {k : Nat} {m : ResolvedModule} (hm : modules.get? k = some m)
    (diagnostics : List CompilerDiagnostic) :
    (plannedNames m m.name asts analysis (planIdentities analysis asts) file diagnostics).diagnostics = diagnostics ∧
      Sees ids (moduleSources asts) modules (planIdentities analysis asts) k m
        (plannedNames m m.name asts analysis (planIdentities analysis asts) file diagnostics) := by
  have hplans := fun {k : Nat} {m : ResolvedModule} (hm : modules.get? k = some m) =>
    @plans_graph ids (moduleSources asts) modules hgraph asts analysis hmodules k m hm
  have hentry : ∀ i ∈ m.imports.values, m.imports.get? i.localName = some i := by
    intro i hi
    obtain ⟨⟨name, i'⟩, he, rfl⟩ := List.mem_map.mp hi
    have hget := OrdMap.get?_eq_some_iff.mpr he
    rw [(exists_targets hgraph hm hget).1]
    exact hget
  have htargets : ∀ i ∈ m.imports.values, ∃ k j t p, Targets ids (moduleSources asts) modules i k j t p :=
    fun i hi => (exists_targets hgraph hm (hentry i hi)).2
  have hidentifier : ∀ i ∈ m.imports.values, isIdentifier i.localName = true :=
    fun i hi => identifier_import hgraph hnamed hm (hentry i hi)
  have hkeys : m.imports.values.map (·.localName) = m.imports.keys := by
    rw [OrdMap.values, OrdMap.keys, List.map_map]
    refine List.map_congr_left fun e he => ?_
    exact (exists_targets hgraph hm (OrdMap.get?_eq_some_iff.mpr he)).1
  have hfresh : ∀ name, m.definitions.contains name = true → name ∉ m.imports.values.map (·.localName) := by
    intro name hname hmem
    rw [hkeys] at hmem
    obtain ⟨i, hi⟩ := OrdMap.mem_keys_iff.mp hmem
    rw [hgraph.fresh k m hm name i hi] at hname
    cases hname
  refine ⟨planImports_diagnostics hgraph hmodules htargets, fun name d hd => ?_, fun localName i hi => ?_,
    fun p hp key hkey => ?_, fun localName i k' j t p hi ht key hkey => ?_⟩
  · -- an item of the module: no import has its name
    refine ((planImports_frame hidentifier).1 name (hfresh name ?_)).trans (ownGlobals_get (hplans hm) (hgraph.id k m hm) hd)
    rw [OrdMap.contains, hd]
    rfl
  · have hmem : i ∈ m.imports.values := List.mem_map.mpr ⟨_, OrdMap.get?_eq_some_iff.mp hi, rfl⟩
    obtain ⟨hlocal, k', j, t, p, ht⟩ := exists_targets hgraph hm hi
    obtain ⟨before, hglobals, -⟩ := planImports_enters (hkeys ▸ m.imports.nodup_keys) hidentifier hmem _
    rw [← hlocal, ht.definition]
    refine hglobals.trans ?_
    rw [planImport_eq hgraph hmodules ht, OrdMap.get?_insert, if_pos rfl]
  · obtain ⟨id, hid⟩ := (hplans hm).keys key (mem_moduleKeys hgraph hm hp hkey)
    refine ⟨id, hid, ((planImports_frame hidentifier).2 key ?_).trans ?_⟩
    · rw [ownerOf_memberKey (identifier_item hnamed hp) hkey]
      exact hfresh _ ((hgraph.definitions k m hm).contains_iff.mpr (List.mem_map.mpr ⟨p, hp, rfl⟩))
    · rw [ownMembers_get, hid]
  · have hmem : i ∈ m.imports.values := List.mem_map.mpr ⟨_, OrdMap.get?_eq_some_iff.mp hi, rfl⟩
    obtain ⟨before, -, hmembers⟩ := planImports_enters (hkeys ▸ m.imports.nodup_keys) hidentifier hmem _
    obtain ⟨id, hid⟩ := (hplans ht.module).keys key (mem_moduleKeys hgraph ht.module (List.mem_of_getElem? ht.item) hkey)
    refine ⟨id, hid, ?_⟩
    rw [← (exists_targets hgraph hm hi).1]
    refine (hmembers _ (ownerOf_rename (hidentifier i hmem) hkey)).trans ?_
    rw [planImport_eq hgraph hmodules ht]
    exact enterMembers_get hkey hid (fun _ hk => hk) (.inl hkey)

end
end Package
end Syllog
