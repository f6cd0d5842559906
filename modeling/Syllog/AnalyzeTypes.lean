import Syllog.AnalyzeNames
/-!
# AnalyzeTypes — when a type resolves, and to what

Resolving a type reports nothing exactly where the type is well formed and all its names have symbols; what it stands for
then depends on the symbols of its names alone.
-/
namespace Syllog

namespace Ast

open Hir (ResolvedType)

mutual
/-- A type with as many arguments as its constructor takes. -/
def TypeNode.wellFormed : TypeNode → Bool
  | .reference _ _ inner _   => inner.wellFormed
  | .array inner _           => inner.wellFormed
  | .tuple items _           => wellFormedAll items
  | .path [name] arguments _ =>
    (if name = "Option" then arguments.length = 1 else if name = "Result" then arguments.length = 2 else arguments.isEmpty) &&
      wellFormedAll arguments
  | .path _ _ _              => false
def wellFormedAll : List TypeNode → Bool
  | []      => true
  | t :: ts => t.wellFormed && wellFormedAll ts
end

mutual
/-- The names a type looks up. -/
def TypeNode.names : TypeNode → List String
  | .reference _ _ inner _   => inner.names
  | .array inner _           => inner.names
  | .tuple items _           => typeNames items
  | .path [name] arguments _ =>
    if name = "Option" ∨ name = "Result" then typeNames arguments else if name = "Unit" then [] else [name]
  | .path _ _ _              => []
def typeNames : List TypeNode → List String
  | []      => []
  | t :: ts => t.names ++ typeNames ts
end

mutual
/-- The type a node stands for, where `named` says what its names stand for. -/
def TypeNode.readWith (named : String → ResolvedType) : TypeNode → ResolvedType
  | .reference lifetime mutable inner _ => .reference lifetime mutable (inner.readWith named)
  | .array inner _                      => .array (inner.readWith named)
  | .tuple [] _                         => .unit
  | .tuple items _                      => .tuple (readAllWith named items)
  | .path [name] arguments _            =>
    if name = "Option" then
      match readAllWith named arguments with
      | [item] => .option item
      | _      => .error
    else if name = "Result" then
      match readAllWith named arguments with
      | [ok, err] => .result ok err
      | _         => .error
    else if name = "Unit" then .unit
    else named name
  | .path _ _ _                         => .error
def readAllWith (named : String → ResolvedType) : List TypeNode → List ResolvedType
  | []      => []
  | t :: ts => t.readWith named :: readAllWith named ts
end

end Ast

namespace Semantic

open Hir Ast

/-- The type a node stands for among the symbols of a file. -/
def Analyzer.read (a : Analyzer) (node : TypeNode) : ResolvedType := (resolveType a node).value

/-! ## Types -/

section
variable {a a' : Analyzer}

theorem clean_resolveTypes : ∀ {ts : List TypeNode}, Clean (resolveTypes a ts) ↔ ∀ t ∈ ts, Clean (resolveType a t)
  | [] => by simp [resolveTypes]
  | t :: ts => by simp [resolveTypes, clean_resolveTypes]

theorem resolveTypes_value : ∀ {ts : List TypeNode}, (resolveTypes a ts).value = ts.map a.read
  | [] => rfl
  | t :: ts => by simp [resolveTypes, resolveTypes_value, Analyzer.read]

theorem clean_resolveOption {ty : Option TypeNode} : Clean (resolveOption a ty) ↔ ∀ t ∈ ty, Clean (resolveType a t) := by
  cases ty <;> simp [resolveOption]

theorem resolveOption_value {ty : Option TypeNode} : (resolveOption a ty).value = ty.map a.read := by
  cases ty <;> rfl

theorem not_clean_typeArityError (name : String) (expected actual : Nat) (span : Span) :
    ¬ Clean (a.typeArityError name expected actual span) := not_clean_error a _ _ span

/-- A named type without a diagnostic takes no arguments and has a symbol. -/
theorem clean_resolveNamed {name : String} {arity : Nat} {span : Span} :
    Clean (resolveNamed a name arity span) ↔ arity = 0 ∧ ∃ symbol, a.symbols.types.get? name = some symbol := by
  unfold resolveNamed
  cases hget : a.symbols.types.get? name with
  | none => simp
  | some symbol => by_cases harity : arity = 0 <;> simp [harity, not_clean_typeArityError]

/-- What a name stands for among the symbols of a file. -/
def Analyzer.named (a : Analyzer) (name : String) : ResolvedType :=
  match a.symbols.types.get? name with
  | some symbol => symbolType name symbol.kind
  | none        => .error

theorem resolveNamed_value {name : String} {span : Span} {symbol : TypeSymbol}
    (hget : a.symbols.types.get? name = some symbol) : (resolveNamed a name 0 span).value = a.named name := by
  unfold resolveNamed Analyzer.named
  rw [hget]
  rfl

/-- Every name among `names` has a symbol. -/
def Analyzer.Knows (a : Analyzer) (names : List String) : Prop := ∀ name ∈ names, ∃ symbol, a.symbols.types.get? name = some symbol

theorem knows_append {u v : List String} : a.Knows (u ++ v) ↔ a.Knows u ∧ a.Knows v := by
  simp only [Analyzer.Knows, List.mem_append, or_imp, forall_and]

mutual
/-- **Resolving a type reports nothing exactly where it is well formed and its names are known.** -/
theorem clean_resolveType : ∀ t : TypeNode, Clean (resolveType a t) ↔ t.wellFormed = true ∧ a.Knows t.names
  | .reference _ _ inner _ => by simp [resolveType, TypeNode.wellFormed, TypeNode.names, clean_resolveType inner]
  | .array inner _ => by simp [resolveType, TypeNode.wellFormed, TypeNode.names, clean_resolveType inner]
  | .tuple [] _ => by simp [resolveType, TypeNode.wellFormed, TypeNode.names, wellFormedAll, typeNames, Analyzer.Knows]
  | .tuple (t :: ts) _ => by
    have h := clean_resolveAll (t :: ts)
    simp only [resolveType, clean_bind, clean_pure, and_true, TypeNode.wellFormed, TypeNode.names]
    exact h
  | .path [] _ _ => by simp [resolveType, TypeNode.wellFormed]
  | .path (_ :: _ :: _) _ _ => by simp [resolveType, TypeNode.wellFormed]
  | .path [name] [] span => by
    simp only [resolveType, TypeNode.wellFormed, TypeNode.names, wellFormedAll, typeNames]
    by_cases hoption : name = "Option"
    · simp [hoption, not_clean_typeArityError]
    by_cases hresult : name = "Result"
    · simp [hresult, not_clean_typeArityError]
    by_cases hunit : name = "Unit"
    · simp [hunit, Analyzer.Knows]
    · simp [hoption, hresult, hunit, clean_resolveNamed, Analyzer.Knows]
  | .path [name] [item] span => by
    simp only [resolveType, TypeNode.wellFormed, TypeNode.names, wellFormedAll, typeNames]
    by_cases hoption : name = "Option"
    · simp [hoption, clean_resolveType item]
    by_cases hresult : name = "Result"
    · simp [hresult, not_clean_typeArityError]
    · simp [hoption, hresult, clean_resolveNamed]
  | .path [name] [ok, err] span => by
    simp only [resolveType, TypeNode.wellFormed, TypeNode.names, wellFormedAll, typeNames]
    by_cases hoption : name = "Option"
    · simp [hoption, not_clean_typeArityError]
    by_cases hresult : name = "Result"
    · simp [hresult, clean_resolveType ok, clean_resolveType err, knows_append]
      tauto
    · simp [hoption, hresult, clean_resolveNamed]
  | .path [name] (_ :: _ :: _ :: _) span => by
    simp only [resolveType, TypeNode.wellFormed, TypeNode.names, wellFormedAll, typeNames]
    by_cases hoption : name = "Option"
    · simp [hoption, not_clean_typeArityError]
    by_cases hresult : name = "Result"
    · simp [hresult, not_clean_typeArityError]
    · simp [hoption, hresult, clean_resolveNamed]
theorem clean_resolveAll : ∀ ts : List TypeNode, Clean (resolveTypes a ts) ↔ wellFormedAll ts = true ∧ a.Knows (typeNames ts)
  | [] => by simp [resolveTypes, wellFormedAll, typeNames, Analyzer.Knows]
  | t :: ts => by
    simp only [resolveTypes, clean_bind, clean_pure, and_true, clean_resolveType t, clean_resolveAll ts, wellFormedAll,
      typeNames, knows_append, Bool.and_eq_true]
    tauto
end

mutual
/-- It then reads the names as the file's symbols. -/
theorem read_eq : ∀ t : TypeNode, Clean (resolveType a t) → a.read t = t.readWith a.named
  | .reference _ _ inner _, h => by
    simp only [resolveType, clean_bind] at h
    have hinner := read_eq inner h.1
    simp only [Analyzer.read, resolveType, Logged.value_bind, Logged.value_pure, TypeNode.readWith] at hinner ⊢
    rw [hinner]
  | .array inner _, h => by
    simp only [resolveType, clean_bind] at h
    have hinner := read_eq inner h.1
    simp only [Analyzer.read, resolveType, Logged.value_bind, Logged.value_pure, TypeNode.readWith] at hinner ⊢
    rw [hinner]
  | .tuple [] _, _ => rfl
  | .tuple (t :: ts) _, h => by
    simp only [resolveType, clean_bind] at h
    have hall := readAll_eq (t :: ts) h.1
    simp only [Analyzer.read, resolveType, Logged.value_bind, Logged.value_pure, TypeNode.readWith] at hall ⊢
    rw [hall]
  | .path [] _ _, h => by simp [resolveType] at h
  | .path (_ :: _ :: _) _ _, h => by simp [resolveType] at h
  | .path [name] [] span, h => by
    simp only [Analyzer.read, resolveType, TypeNode.readWith] at h ⊢
    by_cases hoption : name = "Option"
    · simp [hoption, not_clean_typeArityError] at h
    by_cases hresult : name = "Result"
    · simp [hresult, not_clean_typeArityError] at h
    by_cases hunit : name = "Unit"
    · simp [hunit]
    · simp only [hoption, hresult, hunit, false_and, if_false] at h ⊢
      obtain ⟨-, symbol, hget⟩ := clean_resolveNamed.mp h
      exact resolveNamed_value hget
  | .path [name] [item] span, h => by
    simp only [Analyzer.read, resolveType, TypeNode.readWith] at h ⊢
    by_cases hoption : name = "Option"
    · simp only [hoption, if_true, clean_bind, readAllWith, Logged.value_bind, Logged.value_pure] at h ⊢
      rw [← read_eq item h.1, Analyzer.read]
    by_cases hresult : name = "Result"
    · simp [hresult, not_clean_typeArityError] at h
    · simp [hoption, hresult, clean_resolveNamed] at h
  | .path [name] [ok, err] span, h => by
    simp only [Analyzer.read, resolveType, TypeNode.readWith] at h ⊢
    by_cases hoption : name = "Option"
    · simp [hoption, not_clean_typeArityError] at h
    by_cases hresult : name = "Result"
    · simp only [if_neg hoption, if_pos hresult, clean_bind, readAllWith, Logged.value_bind, Logged.value_pure] at h ⊢
      rw [← read_eq ok h.1, ← read_eq err h.2.1, Analyzer.read, Analyzer.read]
    · simp [hoption, hresult, clean_resolveNamed] at h
  | .path [name] (_ :: _ :: _ :: _) span, h => by
    simp only [Analyzer.read, resolveType, TypeNode.readWith] at h ⊢
    by_cases hoption : name = "Option"
    · simp [hoption, not_clean_typeArityError] at h
    by_cases hresult : name = "Result"
    · simp [hresult, not_clean_typeArityError] at h
    · simp [hoption, hresult, clean_resolveNamed] at h
theorem readAll_eq : ∀ ts : List TypeNode, Clean (resolveTypes a ts) → (resolveTypes a ts).value = readAllWith a.named ts
  | [], _ => rfl
  | t :: ts, h => by
    simp only [resolveTypes, clean_bind] at h
    have hhead := read_eq t h.1
    simp only [resolveTypes, Logged.value_bind, Logged.value_pure, readAllWith, readAll_eq ts h.2.1]
    exact congrArg (· :: _) hhead
end

/-- The symbols of `a` are among those of `a'`. -/
def Analyzer.Within (a a' : Analyzer) : Prop :=
  ∀ name symbol, a.symbols.types.get? name = some symbol → a'.symbols.types.get? name = some symbol

mutual
theorem readWith_congr {f g : String → ResolvedType} : ∀ t : TypeNode, (∀ name ∈ t.names, f name = g name) →
    t.readWith f = t.readWith g
  | .reference _ _ inner _, h => by simp only [TypeNode.readWith, readWith_congr inner h]
  | .array inner _, h => by simp only [TypeNode.readWith, readWith_congr inner h]
  | .tuple [] _, _ => rfl
  | .tuple (t :: ts) _, h => by simp only [TypeNode.readWith, readAllWith_congr (t :: ts) h]
  | .path [] _ _, _ => rfl
  | .path (_ :: _ :: _) _ _, _ => rfl
  | .path [name] arguments _, h => by
    simp only [TypeNode.names] at h
    simp only [TypeNode.readWith]
    by_cases hgeneric : name = "Option" ∨ name = "Result"
    · rw [if_pos hgeneric] at h
      rw [readAllWith_congr arguments h]
      rcases hgeneric with rfl | rfl
      · simp
      · simp
    · obtain ⟨hoption, hresult⟩ := not_or.mp hgeneric
      rw [if_neg hgeneric] at h
      simp only [if_neg hoption, if_neg hresult]
      by_cases hunit : name = "Unit"
      · simp [hunit]
      · rw [if_neg hunit] at h
        simp only [if_neg hunit]
        exact h name List.mem_cons_self
theorem readAllWith_congr {f g : String → ResolvedType} : ∀ ts : List TypeNode, (∀ name ∈ typeNames ts, f name = g name) →
    readAllWith f ts = readAllWith g ts
  | [], _ => rfl
  | t :: ts, h => by
    rw [readAllWith, readAllWith, readWith_congr t fun name hn => h name (List.mem_append_left _ hn),
      readAllWith_congr ts fun name hn => h name (List.mem_append_right _ hn)]
end

/-- A type keeps its meaning when symbols are added. -/
theorem resolveType_within (hwithin : a.Within a') {t : TypeNode} (h : Clean (resolveType a t)) :
    Clean (resolveType a' t) ∧ a'.read t = a.read t := by
  obtain ⟨hform, hknows⟩ := (clean_resolveType t).mp h
  have hclean : Clean (resolveType a' t) := (clean_resolveType t).mpr ⟨hform, fun name hn =>
    (hknows name hn).imp fun symbol hget => hwithin name symbol hget⟩
  refine ⟨hclean, ?_⟩
  rw [read_eq t h, read_eq t hclean]
  refine readWith_congr t fun name hn => ?_
  obtain ⟨symbol, hget⟩ := hknows name hn
  rw [Analyzer.named, Analyzer.named, hget, hwithin name symbol hget]

end
end Semantic
end Syllog
