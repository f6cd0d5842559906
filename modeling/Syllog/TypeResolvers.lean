import Syllog.ImportedTypes
import Syllog.LowerStatic
/-!
# TypeResolvers — two readings of a type, two notions of copying

A type is resolved once by the analyzer and once more by the lowering, and whether its values are copied is decided once on
its spelling and once on the type of the intermediate code.  Here is where the two agree.
-/
namespace Syllog

namespace Ast

mutual
/-- `Unit` is written somewhere in the type. -/
def TypeNode.mentionsUnit : TypeNode → Bool
  | .reference _ _ inner _   => inner.mentionsUnit
  | .array inner _           => inner.mentionsUnit
  | .tuple items _           => mentionUnit items
  | .path [name] [] _        => name = "Unit"
  | .path _ arguments _      => mentionUnit arguments
def mentionUnit : List TypeNode → Bool
  | []      => false
  | t :: ts => t.mentionsUnit || mentionUnit ts
end

/-- A type whose spelling is that of a copied one: `Str`, or a declared name that looks like a sized number. -/
def TypeNode.misspelt : TypeNode → Bool
  | .path [name] [] _ => name = "Str" || (Ownership.isSizedName name && name ∉ Semantic.primitiveNames)
  | _                 => false

end Ast

namespace Semantic

open Hir Ast AstLower

/-! ## The symbol tables of an analyzer -/

/-- The analyzers a file leads to, with and without diagnostics. -/
inductive Analyzer.Built : Analyzer → Prop
  | new (file : String) : Built (Analyzer.new file)
  | insertSymbol {a : Analyzer} (h : Built a) (name : String) (item : Item) : Built (a.insertSymbol name item).value
  | record {a : Analyzer} (h : Built a) (name : String) (item : Item) : Built (a.record name item).value
  | resolveDeclaration {a : Analyzer} (h : Built a) (item : Item) : Built (a.resolveDeclaration item).value

theorem foldlM_value_keeps {α σ : Type} {step : σ → α → Checked σ} {P : σ → Prop} (hstep : ∀ s x, P s → P (step s x).value)
    {l : List α} {s : σ} (h : P s) : P (l.foldlM step s).value :=
  @Logged.foldlM_keeps _ _ (fun _ => False) _ step P l s (fun x _ s _ => hstep s x) (fun _ _ hbad => hbad) h

theorem built_analyzed (file : String) (ast : SourceFile) (imports : List (String × Item)) :
    (analyzed file ast imports).value.Built := by
  have hcollect : ((Analyzer.new file).collectDeclarations ast.items).value.Built :=
    foldlM_value_keeps (P := Analyzer.Built) (fun _ item h => h.insertSymbol item.name item) (.new file)
  have himports : (((Analyzer.new file).collectDeclarations ast.items).value.installImports imports).value.Built :=
    foldlM_value_keeps (P := Analyzer.Built) (fun _ i h => (h.insertSymbol i.1 i.2).record i.1 i.2) hcollect
  exact foldlM_value_keeps (P := Analyzer.Built) (fun _ item h => h.resolveDeclaration item) himports

/-- **The builtin types stay what they are; every other symbol is a struct, an enum or a state.** -/
theorem Analyzer.Built.types {a : Analyzer} (h : a.Built) : ∀ {name : String} {s : TypeSymbol},
    (builtinTypes.get? name = some s → a.symbols.types.get? name = some s) ∧
      (a.symbols.types.get? name = some s → builtinTypes.get? name = some s ∨
        builtinTypes.get? name = none ∧ (s.kind = .struct ∨ s.kind = .enum ∨ s.kind = .state)) := by
  induction h with
  | new file => exact ⟨id, .inl⟩
  | record h name item ih => rw [record_symbols]; exact ih
  | resolveDeclaration h item ih => rw [resolveDeclaration_symbols]; exact ih
  | @insertSymbol a h name item ih =>
    intro name' s
    rcases kind_cases item with ⟨kind, htype, -⟩ | ⟨kind, hvalue, -⟩
    · rw [insertSymbol_type htype, Analyzer.insertType]
      split_ifs with hcontains
      · exact ih
      · have hfree : a.symbols.types.get? name = none := by simpa [OrdMap.contains] using hcontains
        show (_ → (a.symbols.types.insert name ⟨name, kind, item.span⟩).get? name' = some s) ∧
          ((a.symbols.types.insert name ⟨name, kind, item.span⟩).get? name' = some s → _)
        rw [OrdMap.get?_insert]
        by_cases hname : name = name'
        · -- a name that is free is not a builtin one
          have hbuiltin : builtinTypes.get? name = none := by
            cases hget : builtinTypes.get? name with
            | none => rfl
            | some s => rw [ih.1 hget] at hfree; cases hfree
          have hkind : kind = .struct ∨ kind = .enum ∨ kind = .state := by cases item <;> cases htype <;> simp
          rw [if_pos hname, ← hname, hbuiltin]
          refine ⟨fun h => (by cases h), fun h => .inr ⟨rfl, ?_⟩⟩
          cases h
          exact hkind
        · rw [if_neg hname]
          exact ih
    · rw [insertSymbol_value hvalue, Analyzer.insertValue]
      split_ifs <;> exact ih

/-! ## The two readings of a type -/

section
variable {a : Analyzer}

theorem primitive_eq {name : String} (hname : name ∈ primitiveNames) (hunit : name ≠ "Unit") :
    primitive name = symbolType name .primitive := by
  have hall : ∀ n ∈ primitiveNames, n ≠ "Unit" → primitive n = symbolType n .primitive := by decide
  exact hall name hname hunit

/-- A builtin type other than the two generic ones is a primitive. -/
theorem builtinTypes_kind {name : String} {s : TypeSymbol} (h : Analyzer.builtinTypes.get? name = some s)
    (hne : name ∉ ["Option", "Result"]) : name ∈ primitiveNames ∧ s.kind = .primitive := by
  rcases List.mem_append.mp (OrdMap.mem_of_get?_ofList h) with hmem | hmem
  · obtain ⟨n, hn, heq⟩ := List.mem_map.mp hmem
    cases heq
    exact ⟨hn, rfl⟩
  · simp only [List.mem_cons, List.not_mem_nil, or_false, Prod.mk.injEq] at hmem
    rcases hmem with ⟨rfl, -⟩ | ⟨rfl, -⟩
    · exact absurd (by simp) hne
    · exact absurd (by simp) hne

/-- A name that is no builtin is read the same way by both. -/
theorem loweredNamed_eq (hbuilt : a.Built) {name : String} (hne : name ∉ ["Option", "Result", "Unit"]) :
    loweredNamed a.symbols.types name = a.named name := by
  unfold loweredNamed Analyzer.named
  cases hget : a.symbols.types.get? name with
  | none => rfl
  | some s =>
    simp only [List.mem_cons, List.not_mem_nil, or_false, not_or] at hne
    rcases hbuilt.types.2 hget with hbuiltin | ⟨-, hkind⟩
    · obtain ⟨hmem, hkind⟩ := builtinTypes_kind hbuiltin (by simp [hne])
      simp only [hkind]
      exact primitive_eq hmem hne.2.2
    · rcases hkind with hkind | hkind | hkind <;> simp only [hkind] <;> rfl

theorem loweredNamed_unit (hbuilt : a.Built) : loweredNamed a.symbols.types "Unit" = .primitive (.unsigned "Unit") := by
  have hbuiltin : Analyzer.builtinTypes.get? "Unit" = some ⟨"Unit", .primitive, default⟩ := by decide
  unfold loweredNamed
  rw [hbuilt.types.1 hbuiltin]
  rfl

mutual
/-- Read with the names of the file, a type is what the lowering makes of it exactly where no `Unit` is written. -/
theorem lowerType_eq_iff (hbuilt : a.Built) : ∀ t : TypeNode, t.wellFormed = true →
    (lowerType a.symbols.types t = t.readWith a.named ↔ t.mentionsUnit = false)
  | .reference lifetime mutable inner _, h => by
    simp only [lowerType, TypeNode.readWith, TypeNode.mentionsUnit, ResolvedType.reference.injEq, true_and]
    exact lowerType_eq_iff hbuilt inner h
  | .array inner _, h => by
    simp only [lowerType, TypeNode.readWith, TypeNode.mentionsUnit, ResolvedType.array.injEq]
    exact lowerType_eq_iff hbuilt inner h
  | .tuple [] _, _ => by simp [lowerType, TypeNode.readWith, TypeNode.mentionsUnit, mentionUnit]
  | .tuple (t :: ts) _, h => by
    simp only [lowerType, TypeNode.readWith, TypeNode.mentionsUnit, ResolvedType.tuple.injEq]
    exact lowerTypes_eq_iff hbuilt (t :: ts) h
  | .path [] _ _, h => by simp [TypeNode.wellFormed] at h
  | .path (_ :: _ :: _) _ _, h => by simp [TypeNode.wellFormed] at h
  | .path [name] [] _, h => by
    simp only [TypeNode.wellFormed, wellFormedAll] at h
    have hoption : name ≠ "Option" := by rintro rfl; simp at h
    have hresult : name ≠ "Result" := by rintro rfl; simp at h
    simp only [lowerType, TypeNode.readWith, TypeNode.mentionsUnit, if_neg hoption, if_neg hresult]
    by_cases hunit : name = "Unit"
    · subst hunit
      simp [loweredNamed_unit hbuilt]
    · have hne : name ∉ ["Option", "Result", "Unit"] := by simp [hoption, hresult, hunit]
      simp [hunit, loweredNamed_eq hbuilt hne]
  | .path [name] [item] _, h => by
    simp only [TypeNode.wellFormed, wellFormedAll, Bool.and_true, Bool.and_eq_true] at h
    have hoption : name = "Option" := by
      by_contra hne
      simp [hne] at h
    simp only [lowerType, TypeNode.readWith, readAllWith, TypeNode.mentionsUnit, mentionUnit, if_pos hoption, Bool.or_false,
      ResolvedType.option.injEq]
    exact lowerType_eq_iff hbuilt item h.2
  | .path [name] [ok, err] _, h => by
    simp only [TypeNode.wellFormed, wellFormedAll, Bool.and_true, Bool.and_eq_true] at h
    have hresult : name = "Result" := by
      by_contra hne
      simp [hne] at h
    have hoption : name ≠ "Option" := by rw [hresult]; decide
    simp only [lowerType, TypeNode.readWith, readAllWith, TypeNode.mentionsUnit, mentionUnit, if_pos hresult, if_neg hoption,
      Bool.or_false, Bool.or_eq_false_iff, ResolvedType.result.injEq]
    exact and_congr (lowerType_eq_iff hbuilt ok h.2.1) (lowerType_eq_iff hbuilt err h.2.2)
  | .path [name] (_ :: _ :: _ :: _) _, h => by
    simp only [TypeNode.wellFormed, Bool.and_eq_true] at h
    have hargs := h.1
    split_ifs at hargs <;> simp at hargs
theorem lowerTypes_eq_iff (hbuilt : a.Built) : ∀ ts : List TypeNode, wellFormedAll ts = true →
    (lowerTypes a.symbols.types ts = readAllWith a.named ts ↔ mentionUnit ts = false)
  | [], _ => by simp [lowerTypes, readAllWith, mentionUnit]
  | t :: ts, h => by
    simp only [wellFormedAll, Bool.and_eq_true] at h
    simp only [lowerTypes, readAllWith, mentionUnit, Bool.or_eq_false_iff, List.cons.injEq]
    exact and_congr (lowerType_eq_iff hbuilt t h.1) (lowerTypes_eq_iff hbuilt ts h.2)
end

/-- **A type that resolves without a diagnostic is lowered to the type it resolves to exactly where no `Unit` is written in
it.** -/
theorem lowerType_eq_resolved_iff (hbuilt : a.Built) {t : TypeNode} (hclean : Clean (resolveType a t)) :
    lowerType a.symbols.types t = (resolveType a t).value ↔ t.mentionsUnit = false := by
  have hread : (resolveType a t).value = t.readWith a.named := read_eq t hclean
  rw [hread]
  exact lowerType_eq_iff hbuilt t ((clean_resolveType t).mp hclean).1

theorem unit_result_resolved :
    lowerType (Analyzer.new "a.syl").symbols.types (.path ["Option"] [.tuple [] default] default) =
      (resolveType (Analyzer.new "a.syl") (.path ["Option"] [.tuple [] default] default)).value :=
  (lowerType_eq_resolved_iff (.new "a.syl") (by simp [resolveType])).mpr rfl

/-- `Unit` is the empty tuple to the analyzer and an unsigned number to the lowering. -/
theorem unit_named_differs : Clean (resolveType (Analyzer.new "a.syl") (.path ["Unit"] [] default)) ∧
    (resolveType (Analyzer.new "a.syl") (.path ["Unit"] [] default)).value = .unit ∧
    lowerType (Analyzer.new "a.syl").symbols.types (.path ["Unit"] [] default) = .primitive (.unsigned "Unit") := by
  refine ⟨?_, rfl, loweredNamed_unit (.new "a.syl")⟩
  simp [resolveType]

/-! ## Copied types -/

section
open Lower Ownership Mir

theorem primitive_cases (name : String) : (∃ p, primitive name = .primitive p) ∨ primitive name = .error := by
  have hite : ∀ {c : Prop} [Decidable c] {p : PrimitiveType} {r : ResolvedType},
      (∃ p, r = .primitive p) ∨ r = .error → (∃ q, (if c then .primitive p else r) = .primitive q) ∨
        (if c then .primitive p else r) = .error := by
    intro c _ p r h
    by_cases hc : c
    · exact .inl ⟨p, if_pos hc⟩
    · rwa [if_neg hc]
  unfold primitive
  iterate 13 refine hite ?_
  exact .inr rfl

/-- Whether a builtin type is copied is asked of its name and of what it is lowered to. -/
theorem typeIsCopy_builtin {ix : ProgramIndex} {name : String} (hname : name ∈ primitiveNames) {m : MirType}
    (hlower : ix.lowerType (primitive name) = some m) (span : Span) :
    typeIsCopy (.path [name] [] span) = mirTypeIsCopy m ↔ (TypeNode.path [name] [] span).misspelt = false := by
  have hall : ∀ n ∈ primitiveNames, ∀ m ∈ (⟨[], []⟩ : ProgramIndex).lowerType (primitive n),
      (typeIsCopy (.path [n] [] default) = mirTypeIsCopy m ↔ (TypeNode.path [n] [] default).misspelt = false) := by decide
  have hindex : ix.lowerType (primitive name) = (⟨[], []⟩ : ProgramIndex).lowerType (primitive name) := by
    rcases primitive_cases name with ⟨p, hp⟩ | herror
    · rw [hp]
      cases p <;> rfl
    · rw [herror]
      rfl
  exact hall name hname m (hindex ▸ hlower)

/-- **The spelling of a type that is lowered says that its values are copied, and the lowered type too, exactly where it is not
`Str` and not a declared name that looks like a sized number.** -/
theorem typeIsCopy_eq_iff (hbuilt : a.Built) {t : TypeNode} (hclean : Clean (resolveType a t)) {ix : ProgramIndex}
    {m : MirType} (hlower : ix.lowerType (lowerType a.symbols.types t) = some m) :
    typeIsCopy t = mirTypeIsCopy m ↔ t.misspelt = false := by
  obtain ⟨hwell, hknown⟩ := (clean_resolveType t).mp hclean
  match t, hwell, hknown, hlower with
  | .reference lifetime mutable inner _, _, _, hlower =>
    simp only [lowerType, ProgramIndex.lowerType, Option.map_eq_some_iff] at hlower
    obtain ⟨_, -, rfl⟩ := hlower
    simp [typeIsCopy, mirTypeIsCopy, TypeNode.misspelt]
  | .array inner _, _, _, hlower => simp [lowerType, ProgramIndex.lowerType] at hlower
  | .tuple [] _, _, _, hlower =>
    simp only [lowerType, ProgramIndex.lowerType, Option.some.injEq] at hlower
    subst hlower
    simp [typeIsCopy, typesAreCopy, mirTypeIsCopy, TypeNode.misspelt]
  | .tuple (_ :: _) _, _, _, hlower => simp [lowerType, ProgramIndex.lowerType] at hlower
  | .path [] _ _, hwell, _, _ => simp [TypeNode.wellFormed] at hwell
  | .path (_ :: _ :: _) _ _, hwell, _, _ => simp [TypeNode.wellFormed] at hwell
  | .path [name] [item] _, hwell, _, hlower =>
    have hoption : name = "Option" := by
      by_contra hne
      simp [TypeNode.wellFormed, hne] at hwell
    simp [lowerType, hoption, ProgramIndex.lowerType] at hlower
  | .path [name] [ok, err] _, hwell, _, hlower =>
    have hresult : name = "Result" := by
      by_contra hne
      simp [TypeNode.wellFormed, hne] at hwell
    simp [lowerType, hresult, ProgramIndex.lowerType] at hlower
  | .path [name] (_ :: _ :: _ :: _) _, hwell, _, _ =>
    simp only [TypeNode.wellFormed, Bool.and_eq_true] at hwell
    have hargs := hwell.1
    split_ifs at hargs <;> simp at hargs
  | .path [name] [] span, hwell, hknown, hlower =>
    by_cases hmem : name ∈ primitiveNames
    · have hbuiltin : ∀ n ∈ primitiveNames, Analyzer.builtinTypes.get? n = some ⟨n, .primitive, default⟩ := by decide
      simp only [lowerType, loweredNamed, hbuilt.types.1 (hbuiltin name hmem)] at hlower
      exact typeIsCopy_builtin hmem hlower span
    have hne : name ∉ ["Option", "Result"] := by
      simp only [TypeNode.wellFormed, wellFormedAll] at hwell
      rintro hname
      rcases List.mem_pair.mp hname with rfl | rfl <;> simp at hwell
    have hunit : name ≠ "Unit" := fun h => hmem (by rw [h]; decide)
    obtain ⟨s, hget⟩ := hknown name (by
      simp only [List.mem_cons, List.not_mem_nil, or_false, not_or] at hne
      simp [TypeNode.names, hne.1, hne.2, hunit])
    have hkind : s.kind = .struct ∨ s.kind = .enum ∨ s.kind = .state := by
      rcases hbuilt.types.2 hget with hbuiltin | ⟨-, hkind⟩
      · exact absurd (builtinTypes_kind hbuiltin hne).1 hmem
      · exact hkind
    -- what a program declares is an aggregate, and none is copied
    have haggregate : ∃ q, m = .aggregate q := by
      simp only [lowerType, loweredNamed, hget] at hlower
      rcases hkind with hkind | hkind | hkind <;> simp only [hkind, ProgramIndex.lowerType, Option.map_eq_some_iff] at hlower <;>
        obtain ⟨q, -, rfl⟩ := hlower <;> exact ⟨q, rfl⟩
    obtain ⟨q, rfl⟩ := haggregate
    have hspelling : ∀ n ∈ ["Bool", "Char", "Duration", "Size", "Str"], name ≠ n := by
      rintro n hn rfl
      exact hmem ((by decide : ["Bool", "Char", "Duration", "Size", "Str"] ⊆ primitiveNames) hn)
    simp only [List.mem_cons, List.not_mem_nil, or_false, forall_eq_or_imp, forall_eq] at hspelling
    simp [typeIsCopy, mirTypeIsCopy, TypeNode.misspelt, hspelling, hmem]

/-- A file with one empty struct. -/
def declaring (name : String) : Analyzer :=
  ((Analyzer.new "a.syl").insertSymbol name (.struct ⟨true, name, [], default⟩)).value

theorem built_declaring (name : String) : (declaring name).Built := (Analyzer.Built.new "a.syl").insertSymbol name _

theorem message_moves : Ownership.typeIsCopy (.path ["Message"] [] default) = mirTypeIsCopy (.aggregate ⟨0, 0⟩) :=
  (typeIsCopy_eq_iff (built_declaring "Message")
    ((clean_resolveType _).mpr ⟨rfl, fun n hn => ⟨⟨"Message", .struct, default⟩, by
      rw [List.mem_singleton.mp hn]
      decide⟩⟩) (show (⟨[("Message", ⟨0, 0⟩)], []⟩ : ProgramIndex).lowerType _ = _ by decide)).mpr (by decide)

/-- A struct named like a sized number is copied by its spelling and moved by the intermediate code. -/
theorem sized_struct_differs : (declaring "U9").Built ∧ Clean (resolveType (declaring "U9") (.path ["U9"] [] default)) ∧
    (⟨[("U9", ⟨0, 0⟩)], []⟩ : ProgramIndex).lowerType (lowerType (declaring "U9").symbols.types (.path ["U9"] [] default)) =
      some (.aggregate ⟨0, 0⟩) ∧
    typeIsCopy (.path ["U9"] [] default) = true ∧ mirTypeIsCopy (.aggregate ⟨0, 0⟩) = false :=
  ⟨built_declaring "U9", (clean_resolveType _).mpr ⟨rfl, fun n hn => ⟨⟨"U9", .struct, default⟩, by
      rw [List.mem_singleton.mp hn]
      decide⟩⟩, by decide, by decide, rfl⟩

end

end

end Semantic
end Syllog
