import Syllog.ModuleGraph
import Syllog.PackagePlan
import Syllog.Readback
/-!
# Interface — the hash of a module's interface

`interface_hash` of `modules.rs`: the signatures of a module's public items, sorted and hashed.  A signature is a text; the
names in it are identifiers, so it is read back to what it was printed from (`itemSignature_inj`).  That is all of a struct,
an enum, a function or a state that another file resolves, and of an agent and a pipeline the name alone.
-/
namespace Syllog
namespace Ast

open Hir

/-! ## Names -/

mutual
/-- The names of a type are identifiers, and a path has one. -/
def TypeNode.spelt : TypeNode → Bool
  | .reference lifetime _ inner _ => lifetime.all isIdentifier && inner.spelt
  | .path segments arguments _    => !segments.isEmpty && segments.all isIdentifier && speltAll arguments
  | .array inner _                => inner.spelt
  | .tuple items _                => speltAll items
def speltAll : List TypeNode → Bool
  | []      => true
  | t :: ts => t.spelt && speltAll ts
end

/-- The names in the signature of an item are identifiers. -/
def Item.spelt : Item → Bool
  | .function node    => isIdentifier node.name && node.parameters.all (·.ty.spelt) && node.returnType.all TypeNode.spelt
  | .struct node      => isIdentifier node.name && node.fields.all fun field => isIdentifier field.name && field.ty.spelt
  | .enum node        => isIdentifier node.name && node.variants.all fun v => isIdentifier v.name && v.fields.all TypeNode.spelt
  | .state node       => isIdentifier node.name && node.fields.all fun field => isIdentifier field.name && field.ty.spelt
  | .agent node       => isIdentifier node.name
  | .pipeline node    => isIdentifier node.name
  | .safetyBound node => isIdentifier node.name

mutual
/-- A type without its positions. -/
def TypeNode.bare : TypeNode → TypeNode
  | .reference lifetime mutable inner _ => .reference lifetime mutable inner.bare default
  | .path segments arguments _          => .path segments (bareAll arguments) default
  | .array inner _                      => .array inner.bare default
  | .tuple items _                      => .tuple (bareAll items) default
def bareAll : List TypeNode → List TypeNode
  | []      => []
  | t :: ts => t.bare :: bareAll ts
end

end Ast

namespace Modules

open Hir Ast Semantic

/-! ## Signatures -/

mutual
def typeSignature : TypeNode → String
  | .reference lifetime mutable inner _ =>
    "&" ++ (match lifetime with
      | some name => "'" ++ name ++ " "
      | none      => "") ++ (if mutable then "mut " else "") ++ typeSignature inner
  | .path segments arguments _ =>
    joinPath segments ++ (if arguments.isEmpty then "" else "<" ++ ",".intercalate (typeSignatures arguments) ++ ">")
  | .array inner _ => "[" ++ typeSignature inner ++ "]"
  | .tuple items _ => "(" ++ ",".intercalate (typeSignatures items) ++ ")"
def typeSignatures : List TypeNode → List String
  | []      => []
  | t :: ts => typeSignature t :: typeSignatures ts
end

def fieldSignature (field : StructField) : String :=
  toString field.isPublic ++ ":" ++ field.name ++ ":" ++ typeSignature field.ty

def variantSignature (variant : EnumVariant) : String :=
  variant.name ++ "(" ++ ",".intercalate (variant.fields.map typeSignature) ++ ")"

/-- `{:?}` of a field and its type. -/
def stateFieldSignature (field : StateField) : String :=
  "(" ++ quoted field.name ++ ", " ++ quoted (typeSignature field.ty) ++ ")"

def itemSignature : Item → String
  | .function node    => "fn " ++ node.name ++ "(" ++ ",".intercalate (node.parameters.map fun p => typeSignature p.ty) ++ ")->" ++
      (node.returnType.map typeSignature).getD "()" ++ ";async=" ++ toString node.asynchronous
  | .struct node      => "struct " ++ node.name ++ "\x7b" ++ ",".intercalate (node.fields.map fieldSignature) ++ "\x7d"
  | .enum node        => "enum " ++ node.name ++ "\x7b" ++ ",".intercalate (node.variants.map variantSignature) ++ "\x7d"
  | .state node       => "state " ++ node.name ++ ":[" ++ ", ".intercalate (node.fields.map stateFieldSignature) ++ "]"
  | .agent node       => "agent " ++ node.name
  | .pipeline node    => "pipeline " ++ node.name
  | .safetyBound node => "safety_bound " ++ node.name

/-! ## The hash -/

/-- The public items of the files of a module. -/
def publicItems (name : String) (sources : List ModuleSource) : List Item :=
  (sources.filter fun source => moduleName source.ast = some name).flatMap fun source => source.ast.items.filter (·.isPublic)

/-- What is hashed. -/
def interfaceText (name : String) (sources : List ModuleSource) : String :=
  "\n".intercalate (((publicItems name sources).map itemSignature).insertionSort (· ≤ ·))

/-- `interface_hash`, of the module of that name. -/
def interfaceHash (digest : List UInt8 → Vector UInt8 32) (name : String) (sources : List ModuleSource) : Vector UInt8 32 :=
  digest (interfaceText name sources).toUTF8.data.toList

/-! ## Types are read back -/

section
open Readback

/-- The characters that follow a type. -/
def stopsType (c : Char) : Bool := c ∈ [',', ')', ']', '>', '}', ';', '"']

def isPathChar (c : Char) : Bool := isIdentContinue c || c = ':'

section

attribute [local simp] typeSignature typeSignatures TypeNode.spelt speltAll bareAll

theorem typeSignatures_eq (ts : List TypeNode) : typeSignatures ts = ts.map typeSignature := by
  induction ts with
  | nil => rfl
  | cons t ts ih => rw [typeSignatures, ih, List.map_cons]

def typeChars (t : TypeNode) : List Char := (typeSignature t).toList

theorem chars_joined (sep : String) {β : Type} (f : β → String) (l : List β) :
    (sep.intercalate (l.map f)).toList = sep.toList.intercalate (l.map fun b => (f b).toList) := by
  rw [String.toList_intercalate, List.map_map]
  rfl

theorem typeChars_reference (lifetime : Option String) (mutable : Bool) (inner : TypeNode) (span : Span) :
    typeChars (.reference lifetime mutable inner span) = '&' :: ((match lifetime with
      | some name => '\'' :: (name.toList ++ [' '])
      | none      => []) ++ ((if mutable then ['m', 'u', 't', ' '] else []) ++ typeChars inner)) := by
  cases lifetime <;> cases mutable <;> simp [typeChars, typeSignature]

theorem typeChars_path (segments : List String) (arguments : List TypeNode) (span : Span) :
    typeChars (.path segments arguments span) = (joinPath segments).toList ++
      (if arguments = [] then [] else '<' :: ([','].intercalate (arguments.map typeChars) ++ ['>'])) := by
  have hjoined := chars_joined "," typeSignature arguments
  have hcomma : (",".toList) = [','] := rfl
  rw [hcomma] at hjoined
  cases arguments with
  | nil => simp [typeChars, typeSignature]
  | cons t ts =>
    rw [if_neg (List.cons_ne_nil t ts), typeChars, typeSignature, String.toList_append, typeSignatures_eq]
    congr 1
    simp only [List.isEmpty_cons, Bool.false_eq_true, if_false, String.toList_append, hjoined]
    rfl

theorem typeChars_array (inner : TypeNode) (span : Span) : typeChars (.array inner span) = '[' :: (typeChars inner ++ [']']) := by
  simp [typeChars, typeSignature]

theorem typeChars_tuple (items : List TypeNode) (span : Span) :
    typeChars (.tuple items span) = '(' :: ([','].intercalate (items.map typeChars) ++ [')']) := by
  have hjoined := chars_joined "," typeSignature items
  have hcomma : (",".toList) = [','] := rfl
  rw [hcomma] at hjoined
  rw [typeChars, typeSignature, typeSignatures_eq, String.toList_append, String.toList_append, hjoined]
  rfl

end

theorem joinPath_chars {segments : List String} (h : ∀ s ∈ segments, isIdentifier s = true) :
    ∀ c ∈ (joinPath segments).toList, isPathChar c = true := by
  intro c hc
  rw [joinPath, String.toList_intercalate] at hc
  induction segments with
  | nil => simp at hc
  | cons s segments ih =>
    obtain ⟨hs, hlater⟩ := List.forall_mem_cons.mp h
    have hword : ∀ c ∈ s.toList, isPathChar c = true := fun c hc => by
      simp [isPathChar, Package.continue_of_identifier hs c hc]
    cases segments with
    | nil =>
      rw [List.map_cons, List.map_nil, List.intercalate_singleton] at hc
      exact hword c hc
    | cons s' segments =>
      rw [List.map_cons, List.map_cons, List.intercalate_cons_cons, List.append_assoc, List.mem_append, List.mem_append] at hc
      rcases hc with hc | hc | hc
      · exact hword c hc
      · have hcolon : c = ':' := by simpa using hc
        rw [hcolon]
        decide
      · exact ih hlater hc

theorem identifier_opens {s : String} (h : isIdentifier s = true) : ∃ c cs, s.toList = c :: cs ∧ isIdentContinue c = true := by
  cases hchars : s.toList with
  | nil => simp [isIdentifier, hchars] at h
  | cons c cs => exact ⟨c, cs, rfl, Package.continue_of_identifier h c (by rw [hchars]; exact List.mem_cons_self)⟩

/-- Paths of identifiers are told apart. -/
theorem joinPath_inj : ∀ {segments segments' : List String}, (∀ s ∈ segments, isIdentifier s = true) →
    (∀ s ∈ segments', isIdentifier s = true) → (joinPath segments).toList = (joinPath segments').toList → segments = segments'
  | segments, segments', h, h', heq => by
    rw [joinPath, joinPath, String.toList_intercalate, String.toList_intercalate] at heq
    have hcolon : ("::".toList) = [':', ':'] := rfl
    rw [hcolon] at heq
    have hback : ∀ s ∈ segments, isIdentifier s = true ∧
        ReadsBack String.toList (fun s => isIdentifier s = true) (fun c => !isIdentContinue c) (· = ·) s := by
      refine fun s hs => ⟨h s hs, fun s' rest rest' hs' hrest hrest' heq => ?_⟩
      obtain ⟨hword, hrest⟩ := word_append (Package.continue_of_identifier (h s hs)) (Package.continue_of_identifier hs')
        hrest hrest' heq
      exact ⟨String.toList_inj.mp hword, hrest⟩
    have hjoined := @joined _ _ String.toList (fun s => isIdentifier s = true) (fun c => !isIdentContinue c) (· = ·) ':' [':'] '.'
      (by decide) (by decide) (by decide) (fun s hs => by
        obtain ⟨c, cs, hchars, hc⟩ := identifier_opens hs
        refine ⟨c, cs, hchars, ?_⟩
        rintro rfl
        exact absurd hc (by decide)) _ _ [] [] hback h' (by rw [heq])
    exact List.forall₂_eq_eq_eq ▸ hjoined.1

theorem spelt_path {segments : List String} {arguments : List TypeNode} {span : Span}
    (h : (TypeNode.path segments arguments span).spelt = true) :
    segments ≠ [] ∧ (∀ s ∈ segments, isIdentifier s = true) ∧ speltAll arguments = true := by
  simp only [TypeNode.spelt, Bool.and_eq_true, List.all_eq_true] at h
  exact ⟨by simpa using h.1.1, h.1.2, h.2⟩

theorem path_opens {segments : List String} (hne : segments ≠ []) (h : ∀ s ∈ segments, isIdentifier s = true) :
    ∃ c cs, (joinPath segments).toList = c :: cs ∧ isPathChar c = true := by
  have hall := joinPath_chars h
  cases segments with
  | nil => exact absurd rfl hne
  | cons s segments =>
    obtain ⟨c, cs, hs, hc⟩ := identifier_opens (h s List.mem_cons_self)
    have hpath : isPathChar c = true := by simp [isPathChar, hc]
    cases segments with
    | nil => exact ⟨c, cs, by rw [joinPath, String.intercalate_singleton, hs], hpath⟩
    | cons s' segments =>
      refine ⟨c, cs ++ ("::" ++ joinPath (s' :: segments)).toList, ?_, hpath⟩
      rw [joinPath, String.intercalate_cons_cons, String.toList_append, String.toList_append, hs, String.toList_append]
      simp [joinPath]

/-- A type opens with an identifier or with its bracket. -/
def opensType (c : Char) : Bool := c ∈ ['&', '[', '('] || isPathChar c

theorem type_opens {t : TypeNode} (h : t.spelt = true) : ∃ c cs, typeChars t = c :: cs ∧ opensType c = true := by
  cases t with
  | reference lifetime mutable inner span => exact ⟨_, _, typeChars_reference .., by decide⟩
  | array inner span => exact ⟨_, _, typeChars_array .., by decide⟩
  | tuple items span => exact ⟨_, _, typeChars_tuple .., by decide⟩
  | path segments arguments span =>
    obtain ⟨hne, hsegments, -⟩ := spelt_path h
    obtain ⟨c, cs, hchars, hc⟩ := path_opens hne hsegments
    exact ⟨c, _, by rw [typeChars_path, hchars, List.cons_append], by simp [opensType, hc]⟩

def SameType (t t' : TypeNode) : Prop := t.bare = t'.bare

theorem bareAll_eq : ∀ {ts ts' : List TypeNode}, List.Forall₂ SameType ts ts' → bareAll ts = bareAll ts'
  | [], [], _ => rfl
  | _ :: _, _ :: _, .cons h hs => by rw [bareAll, bareAll, h, bareAll_eq hs]

theorem speltAll_iff {ts : List TypeNode} : speltAll ts = true ↔ ∀ t ∈ ts, t.spelt = true := by
  induction ts with
  | nil => simp [speltAll]
  | cons t ts ih => rw [speltAll, Bool.and_eq_true, ih, List.forall_mem_cons]

/-- Types between commas, up to a bracket. -/
theorem joined_types {ts ts' : List TypeNode} {close : Char} {rest rest' : List Char} (hclose : stopsType close = true)
    (hne : ',' ≠ close) (hopens : opensType close = false)
    (hts : ∀ t ∈ ts, t.spelt = true ∧ ReadsBack typeChars (fun t => t.spelt = true) stopsType SameType t)
    (hts' : speltAll ts' = true)
    (h : [','].intercalate (ts.map typeChars) ++ close :: rest = [','].intercalate (ts'.map typeChars) ++ close :: rest') :
    List.Forall₂ SameType ts ts' ∧ rest = rest' := by
  refine joined (by decide) hclose hne (fun t ht => ?_) hts (speltAll_iff.mp hts') h
  obtain ⟨c, cs, hchars, hc⟩ := type_opens ht
  refine ⟨c, cs, hchars, ?_⟩
  rintro rfl
  rw [hopens] at hc
  cases hc

/-! ### References -/

def mutChars (mutable : Bool) : List Char := if mutable then ['m', 'u', 't', ' '] else []

/-- What follows the segments of a path. -/
theorem path_tail {arguments : List TypeNode} {rest : List Char} (hrest : Stops stopsType rest) :
    Stops (fun c => !isPathChar c && c ≠ ' ')
      ((if arguments = [] then [] else '<' :: ([','].intercalate (arguments.map typeChars) ++ ['>'])) ++ rest) := by
  split
  · intro c hc
    have hstop := hrest c hc
    simp only [stopsType, List.mem_cons, List.not_mem_nil, or_false, decide_eq_true_eq] at hstop
    rcases hstop with rfl | rfl | rfl | rfl | rfl | rfl | rfl <;> decide
  · rw [List.cons_append, stops_cons]
    decide

theorem path_ends {arguments : List TypeNode} {rest : List Char} (hrest : Stops stopsType rest) :
    Stops (fun c => !isPathChar c)
      ((if arguments = [] then [] else '<' :: ([','].intercalate (arguments.map typeChars) ++ ['>'])) ++ rest) := by
  intro c hc
  exact (Bool.and_eq_true _ _ ▸ path_tail hrest c hc).1

/-- No type is `mut` and a blank. -/
theorem not_mut {t : TypeNode} (h : t.spelt = true) {rest more : List Char} (hrest : Stops stopsType rest) :
    typeChars t ++ rest ≠ 'm' :: 'u' :: 't' :: ' ' :: more := by
  intro heq
  cases t with
  | reference lifetime mutable inner span =>
    rw [typeChars_reference, List.cons_append] at heq
    exact absurd (List.cons.inj heq).1 (by decide)
  | array inner span =>
    rw [typeChars_array, List.cons_append] at heq
    exact absurd (List.cons.inj heq).1 (by decide)
  | tuple items span =>
    rw [typeChars_tuple, List.cons_append] at heq
    exact absurd (List.cons.inj heq).1 (by decide)
  | path segments arguments span =>
    obtain ⟨-, hsegments, -⟩ := spelt_path h
    have htail := @path_tail arguments _ hrest
    rw [typeChars_path, List.append_assoc] at heq
    have hmut : ∀ c ∈ ['m', 'u', 't'], isPathChar c = true := List.all_eq_true.mp (by decide)
    obtain ⟨-, hafter⟩ := @word_append _ isPathChar _ ['m', 'u', 't'] _ (' ' :: more) (joinPath_chars hsegments) hmut
      (path_ends hrest) (by rw [stops_cons]; decide) heq
    rw [hafter, stops_cons] at htail
    exact absurd htail (by decide)

theorem mutChars_inj {t t' : TypeNode} (ht : t.spelt = true) (ht' : t'.spelt = true) {mutable mutable' : Bool}
    {rest rest' : List Char} (hrest : Stops stopsType rest) (hrest' : Stops stopsType rest')
    (h : mutChars mutable ++ (typeChars t ++ rest) = mutChars mutable' ++ (typeChars t' ++ rest')) :
    mutable = mutable' ∧ typeChars t ++ rest = typeChars t' ++ rest' := by
  cases mutable with
  | false =>
    cases mutable' with
    | false => exact ⟨rfl, h⟩
    | true => exact absurd h (not_mut ht hrest)
  | true =>
    cases mutable' with
    | false => exact absurd h.symm (not_mut ht' hrest')
    | true => exact ⟨rfl, List.append_cancel_left h⟩

theorem mutChars_opens {t : TypeNode} (ht : t.spelt = true) (mutable : Bool) (rest : List Char) :
    ∃ c cs, mutChars mutable ++ (typeChars t ++ rest) = c :: cs ∧ c ≠ '\'' := by
  cases mutable with
  | true => exact ⟨'m', _, rfl, by decide⟩
  | false =>
    obtain ⟨c, cs, hchars, hc⟩ := type_opens ht
    refine ⟨c, cs ++ rest, by rw [hchars]; rfl, ?_⟩
    rintro rfl
    exact absurd hc (by decide)

def lifetimeChars (lifetime : Option String) : List Char :=
  match lifetime with
  | some name => '\'' :: (name.toList ++ [' '])
  | none      => []

theorem lifetimeChars_inj {lifetime lifetime' : Option String} (h : lifetime.all isIdentifier = true)
    (h' : lifetime'.all isIdentifier = true) {a b : List Char} (ha : ∃ c cs, a = c :: cs ∧ c ≠ '\'')
    (hb : ∃ c cs, b = c :: cs ∧ c ≠ '\'') (heq : lifetimeChars lifetime ++ a = lifetimeChars lifetime' ++ b) :
    lifetime = lifetime' ∧ a = b := by
  obtain ⟨c, cs, rfl, hc⟩ := ha
  obtain ⟨c', cs', rfl, hc'⟩ := hb
  cases lifetime with
  | none =>
    cases lifetime' with
    | none => exact ⟨rfl, heq⟩
    | some name' => exact absurd (List.cons.inj heq).1 hc
  | some name =>
    cases lifetime' with
    | none => exact absurd (List.cons.inj heq).1.symm hc'
    | some name' =>
      have hname : name.toList ++ ([' '] ++ c :: cs) = name'.toList ++ ([' '] ++ c' :: cs') := by
        simpa [lifetimeChars] using heq
      obtain ⟨hword, hafter⟩ := word_append (Package.continue_of_identifier h) (Package.continue_of_identifier h')
        (by rw [List.singleton_append, stops_cons]; decide) (by rw [List.singleton_append, stops_cons]; decide) hname
      exact ⟨by rw [String.toList_inj.mp hword], (List.cons.inj hafter).2⟩

/-! ### Every type -/

theorem isPathChar_ne {c d : Char} (hc : isPathChar c = true) (hd : isPathChar d = false) : c ≠ d := by
  rintro rfl
  rw [hd] at hc
  cases hc

mutual
/-- **A type is read back from its signature.** -/
theorem readsBack_type : ∀ t : TypeNode, t.spelt = true →
    ReadsBack typeChars (fun t => t.spelt = true) stopsType SameType t
  | .reference lifetime mutable inner span, ht, t', rest, rest', ht', hrest, hrest', h => by
    simp only [TypeNode.spelt, Bool.and_eq_true] at ht
    rw [typeChars_reference, List.cons_append] at h
    cases t' with
    | reference lifetime' mutable' inner' span' =>
      simp only [TypeNode.spelt, Bool.and_eq_true] at ht'
      rw [typeChars_reference, List.cons_append, List.cons.injEq] at h
      have hchars : lifetimeChars lifetime ++ (mutChars mutable ++ (typeChars inner ++ rest)) =
          lifetimeChars lifetime' ++ (mutChars mutable' ++ (typeChars inner' ++ rest')) := by
        have hafter := h.2
        rw [List.append_assoc, List.append_assoc, List.append_assoc, List.append_assoc] at hafter
        exact hafter
      obtain ⟨rfl, hafter⟩ := lifetimeChars_inj ht.1 ht'.1 (mutChars_opens ht.2 mutable rest)
        (mutChars_opens ht'.2 mutable' rest') hchars
      obtain ⟨rfl, hinner⟩ := mutChars_inj ht.2 ht'.2 hrest hrest' hafter
      obtain ⟨hsame, hend⟩ := readsBack_type inner ht.2 inner' rest rest' ht'.2 hrest hrest' hinner
      refine ⟨?_, hend⟩
      rw [SameType, TypeNode.bare, TypeNode.bare, hsame]
    | array inner' span' =>
      rw [typeChars_array, List.cons_append] at h
      exact absurd (List.cons.inj h).1 (by decide)
    | tuple items' span' =>
      rw [typeChars_tuple, List.cons_append] at h
      exact absurd (List.cons.inj h).1 (by decide)
    | path segments' arguments' span' =>
      obtain ⟨hne, hsegments, -⟩ := spelt_path ht'
      obtain ⟨c, cs, hchars, hc⟩ := path_opens hne hsegments
      rw [typeChars_path, hchars, List.cons_append] at h
      exact absurd (List.cons.inj h).1.symm (isPathChar_ne hc (by decide))
  | .array inner span, ht, t', rest, rest', ht', hrest, hrest', h => by
    simp only [TypeNode.spelt] at ht
    rw [typeChars_array, List.cons_append] at h
    cases t' with
    | reference lifetime' mutable' inner' span' =>
      rw [typeChars_reference, List.cons_append] at h
      exact absurd (List.cons.inj h).1 (by decide)
    | array inner' span' =>
      simp only [TypeNode.spelt] at ht'
      rw [typeChars_array, List.cons_append, List.cons.injEq, List.append_assoc, List.append_assoc] at h
      obtain ⟨hsame, hend⟩ := readsBack_type inner ht inner' (']' :: rest) (']' :: rest') ht' (by rw [stops_cons]; decide)
        (by rw [stops_cons]; decide) h.2
      refine ⟨?_, (List.cons.inj hend).2⟩
      rw [SameType, TypeNode.bare, TypeNode.bare, hsame]
    | tuple items' span' =>
      rw [typeChars_tuple, List.cons_append] at h
      exact absurd (List.cons.inj h).1 (by decide)
    | path segments' arguments' span' =>
      obtain ⟨hne, hsegments, -⟩ := spelt_path ht'
      obtain ⟨c, cs, hchars, hc⟩ := path_opens hne hsegments
      rw [typeChars_path, hchars, List.cons_append] at h
      exact absurd (List.cons.inj h).1.symm (isPathChar_ne hc (by decide))
  | .tuple items span, ht, t', rest, rest', ht', hrest, hrest', h => by
    simp only [TypeNode.spelt] at ht
    rw [typeChars_tuple, List.cons_append] at h
    cases t' with
    | reference lifetime' mutable' inner' span' =>
      rw [typeChars_reference, List.cons_append] at h
      exact absurd (List.cons.inj h).1 (by decide)
    | array inner' span' =>
      rw [typeChars_array, List.cons_append] at h
      exact absurd (List.cons.inj h).1 (by decide)
    | tuple items' span' =>
      simp only [TypeNode.spelt] at ht'
      rw [typeChars_tuple, List.cons_append, List.cons.injEq, List.append_assoc, List.append_assoc] at h
      obtain ⟨hsame, hend⟩ := joined_types (by decide) (by decide) (by decide) (readsBack_types items ht) ht' h.2
      refine ⟨?_, hend⟩
      rw [SameType, TypeNode.bare, TypeNode.bare, bareAll_eq hsame]
    | path segments' arguments' span' =>
      obtain ⟨hne, hsegments, -⟩ := spelt_path ht'
      obtain ⟨c, cs, hchars, hc⟩ := path_opens hne hsegments
      rw [typeChars_path, hchars, List.cons_append] at h
      exact absurd (List.cons.inj h).1.symm (isPathChar_ne hc (by decide))
  | .path segments arguments span, ht, t', rest, rest', ht', hrest, hrest', h => by
    obtain ⟨hne, hsegments, harguments⟩ := spelt_path ht
    obtain ⟨c, cs, hchars, hc⟩ := path_opens hne hsegments
    cases t' with
    | reference lifetime' mutable' inner' span' =>
      rw [typeChars_path, hchars, List.cons_append, typeChars_reference, List.cons_append] at h
      exact absurd (List.cons.inj h).1 (isPathChar_ne hc (by decide))
    | array inner' span' =>
      rw [typeChars_path, hchars, List.cons_append, typeChars_array, List.cons_append] at h
      exact absurd (List.cons.inj h).1 (isPathChar_ne hc (by decide))
    | tuple items' span' =>
      rw [typeChars_path, hchars, List.cons_append, typeChars_tuple, List.cons_append] at h
      exact absurd (List.cons.inj h).1 (isPathChar_ne hc (by decide))
    | path segments' arguments' span' =>
      obtain ⟨-, hsegments', harguments'⟩ := spelt_path ht'
      rw [typeChars_path, typeChars_path, List.append_assoc, List.append_assoc] at h
      obtain ⟨hpath, hafter⟩ := word_append (joinPath_chars hsegments) (joinPath_chars hsegments') (path_ends hrest)
        (path_ends hrest') h
      obtain rfl := joinPath_inj hsegments hsegments' hpath
      have hopen : ∀ {rest more : List Char}, Stops stopsType rest → rest ≠ '<' :: more := by
        rintro rest more hrest rfl
        rw [stops_cons] at hrest
        exact absurd hrest (by decide)
      by_cases hnone : arguments = []
      · by_cases hnone' : arguments' = []
        · subst hnone hnone'
          exact ⟨rfl, by simpa using hafter⟩
        · rw [if_pos hnone, if_neg hnone'] at hafter
          exact absurd hafter (hopen hrest)
      · by_cases hnone' : arguments' = []
        · rw [if_neg hnone, if_pos hnone'] at hafter
          exact absurd hafter.symm (hopen hrest')
        · rw [if_neg hnone, if_neg hnone', List.cons_append, List.cons_append, List.cons.injEq, List.append_assoc,
            List.append_assoc] at hafter
          obtain ⟨hsame, hend⟩ := joined_types (by decide) (by decide) (by decide) (readsBack_types arguments harguments)
            harguments' hafter.2
          refine ⟨?_, hend⟩
          rw [SameType, TypeNode.bare, TypeNode.bare, bareAll_eq hsame]
theorem readsBack_types : ∀ ts : List TypeNode, speltAll ts = true → ∀ t ∈ ts, t.spelt = true ∧
    ReadsBack typeChars (fun t => t.spelt = true) stopsType SameType t
  | [], _ => fun _ h => (nomatch h)
  | t :: ts, h => by
    rw [speltAll, Bool.and_eq_true] at h
    exact List.forall_mem_cons.mpr ⟨⟨h.1, readsBack_type t h.1⟩, readsBack_types ts h.2⟩
end

/-! ## Items are read back -/

def returned (ty : Option TypeNode) : TypeNode := ty.getD (.tuple [] default)

/-- Two items that a file resolves alike: what it reads of them is the same but for positions. -/
def SameInterface : Item → Item → Prop
  | .struct node, .struct node'     =>
    List.Forall₂ (fun f f' => f.name = f'.name ∧ SameType f.ty f'.ty) node.fields node'.fields
  | .enum node, .enum node'         =>
    List.Forall₂ (fun v v' => v.name = v'.name ∧ List.Forall₂ SameType v.fields v'.fields) node.variants node'.variants
  | .state node, .state node'       => List.Forall₂ SameType (node.fields.map (·.ty)) (node'.fields.map (·.ty))
  | .function node, .function node' =>
    List.Forall₂ SameType (node.parameters.map (·.ty)) (node'.parameters.map (·.ty)) ∧
      SameType (returned node.returnType) (returned node'.returnType)
  | .pipeline node, .pipeline node' =>
    List.Forall₂ SameType (node.parameters.map (·.ty)) (node'.parameters.map (·.ty)) ∧
      SameType (returned node.returnType) (returned node'.returnType)
  | .agent node, .agent node'       =>
    Option.Rel SameType ((property node.fields "input").bind (·.ty)) ((property node'.fields "input").bind (·.ty)) ∧
      Option.Rel SameType ((property node.fields "output").bind (·.ty)) ((property node'.fields "output").bind (·.ty))
  | .safetyBound _, .safetyBound _  => True
  | _, _                            => False

/-- The items whose signature is their name. -/
def isRoute : Item → Bool
  | .agent _ | .pipeline _ => true
  | _                      => false

def fieldChars (field : StructField) : List Char := (fieldSignature field).toList

def variantChars (variant : EnumVariant) : List Char := (variantSignature variant).toList

def stateFieldChars (field : StateField) : List Char := (stateFieldSignature field).toList

theorem fieldChars_eq (field : StructField) :
    fieldChars field = (toString field.isPublic).toList ++ ':' :: (field.name.toList ++ ':' :: typeChars field.ty) := by
  simp [fieldChars, fieldSignature, typeChars]

theorem variantChars_eq (variant : EnumVariant) :
    variantChars variant = variant.name.toList ++ '(' :: ([','].intercalate (variant.fields.map typeChars) ++ [')']) := by
  have hjoined := chars_joined "," typeSignature variant.fields
  have hcomma : (",".toList) = [','] := rfl
  rw [hcomma] at hjoined
  simp only [variantChars, variantSignature, String.toList_append, hjoined, List.append_assoc]
  rfl

theorem stateFieldChars_eq (field : StateField) :
    stateFieldChars field =
      '(' :: '"' :: (field.name.toList ++ '"' :: ',' :: ' ' :: '"' :: (typeChars field.ty ++ ['"', ')'])) := by
  simp [stateFieldChars, stateFieldSignature, quoted, typeChars]

/-- A name up to a character that is in no identifier. -/
theorem name_append {name name' : String} {c c' : Char} {rest rest' : List Char} (h : isIdentifier name = true)
    (h' : isIdentifier name' = true) (hc : isIdentContinue c = false) (hc' : isIdentContinue c' = false)
    (heq : name.toList ++ c :: rest = name'.toList ++ c' :: rest') : name = name' ∧ rest = rest' := by
  obtain ⟨hword, hrest⟩ := word_append (Package.continue_of_identifier h) (Package.continue_of_identifier h')
    (by rw [stops_cons, hc]; rfl) (by rw [stops_cons, hc']; rfl) heq
  exact ⟨String.toList_inj.mp hword, (List.cons.inj hrest).2⟩

theorem readsBack_field {field : StructField} (h : isIdentifier field.name = true ∧ field.ty.spelt = true) :
    ReadsBack fieldChars (fun f => isIdentifier f.name = true ∧ f.ty.spelt = true) stopsType
      (fun f f' => f.name = f'.name ∧ SameType f.ty f'.ty) field := by
  intro field' rest rest' h' hrest hrest' heq
  rw [fieldChars_eq, fieldChars_eq, List.append_assoc, List.append_assoc] at heq
  have hname : field.name.toList ++ ':' :: (typeChars field.ty ++ rest) =
      field'.name.toList ++ ':' :: (typeChars field'.ty ++ rest') := by
    cases hpublic : field.isPublic with
    | false =>
      cases hpublic' : field'.isPublic with
      | false => simpa [hpublic, hpublic', toString] using heq
      | true => simp [hpublic, hpublic', toString] at heq
    | true =>
      cases hpublic' : field'.isPublic with
      | false => simp [hpublic, hpublic', toString] at heq
      | true => simpa [hpublic, hpublic', toString] using heq
  obtain ⟨hsame, htype⟩ := name_append h.1 h'.1 (by decide) (by decide) hname
  obtain ⟨hty, hend⟩ := readsBack_type field.ty h.2 field'.ty rest rest' h'.2 hrest hrest' htype
  exact ⟨⟨hsame, hty⟩, hend⟩

theorem readsBack_variant {variant : EnumVariant} (h : isIdentifier variant.name = true ∧ speltAll variant.fields = true) :
    ReadsBack variantChars (fun v => isIdentifier v.name = true ∧ speltAll v.fields = true) stopsType
      (fun v v' => v.name = v'.name ∧ List.Forall₂ SameType v.fields v'.fields) variant := by
  intro variant' rest rest' h' hrest hrest' heq
  rw [variantChars_eq, variantChars_eq, List.append_assoc, List.append_assoc, List.cons_append, List.cons_append] at heq
  obtain ⟨hsame, hfields⟩ := name_append h.1 h'.1 (by decide) (by decide) heq
  rw [List.append_assoc, List.append_assoc] at hfields
  obtain ⟨htypes, hend⟩ := joined_types (by decide) (by decide) (by decide) (readsBack_types variant.fields h.2) h'.2 hfields
  exact ⟨⟨hsame, htypes⟩, hend⟩

theorem readsBack_stateField {field : StateField} (h : isIdentifier field.name = true ∧ field.ty.spelt = true) :
    ReadsBack stateFieldChars (fun f => isIdentifier f.name = true ∧ f.ty.spelt = true) stopsType
      (fun f f' => f.name = f'.name ∧ SameType f.ty f'.ty) field := by
  intro field' rest rest' h' hrest hrest' heq
  rw [stateFieldChars_eq, stateFieldChars_eq] at heq
  have hname : field.name.toList ++ '"' :: (',' :: ' ' :: '"' :: (typeChars field.ty ++ '"' :: ')' :: rest)) =
      field'.name.toList ++ '"' :: (',' :: ' ' :: '"' :: (typeChars field'.ty ++ '"' :: ')' :: rest')) := by
    simpa using heq
  obtain ⟨hsame, hafter⟩ := name_append h.1 h'.1 (by decide) (by decide) hname
  have htype : typeChars field.ty ++ '"' :: ')' :: rest = typeChars field'.ty ++ '"' :: ')' :: rest' := by
    simpa using hafter
  obtain ⟨hty, hend⟩ := readsBack_type field.ty h.2 field'.ty _ _ h'.2 (by rw [stops_cons]; decide) (by rw [stops_cons]; decide)
    htype
  exact ⟨⟨hsame, hty⟩, by simpa using hend⟩

/-! ### The signature of an item -/

def itemChars (item : Item) : List Char := (itemSignature item).toList

theorem itemChars_function (node : FunctionNode) : itemChars (.function node) =
    'f' :: 'n' :: ' ' :: (node.name.toList ++ '(' :: ([','].intercalate ((node.parameters.map (·.ty)).map typeChars) ++ ')' ::
      '-' :: '>' :: (typeChars (returned node.returnType) ++ ';' :: ("async=" ++ toString node.asynchronous).toList))) := by
  have hjoined := chars_joined "," (fun p : Parameter => typeSignature p.ty) node.parameters
  have hcomma : (",".toList) = [','] := rfl
  have hreturned : ((node.returnType.map typeSignature).getD "()").toList = typeChars (returned node.returnType) := by
    cases node.returnType <;> rfl
  rw [hcomma] at hjoined
  show ("fn " ++ node.name ++ "(" ++ ",".intercalate (node.parameters.map fun p => typeSignature p.ty) ++ ")->" ++
    (node.returnType.map typeSignature).getD "()" ++ ";async=" ++ toString node.asynchronous).toList = _
  simp only [String.toList_append, hjoined, hreturned, List.append_assoc, List.map_map]
  rfl

theorem itemChars_struct (node : StructNode) : itemChars (.struct node) =
    's' :: 't' :: 'r' :: 'u' :: 'c' :: 't' :: ' ' :: (node.name.toList ++ '\x7b' ::
      ([','].intercalate (node.fields.map fieldChars) ++ ['\x7d'])) := by
  have hjoined := chars_joined "," fieldSignature node.fields
  have hcomma : (",".toList) = [','] := rfl
  rw [hcomma] at hjoined
  show ("struct " ++ node.name ++ "\x7b" ++ ",".intercalate (node.fields.map fieldSignature) ++ "\x7d").toList = _
  simp only [String.toList_append, hjoined, List.append_assoc]
  rfl

theorem itemChars_enum (node : EnumNode) : itemChars (.enum node) =
    'e' :: 'n' :: 'u' :: 'm' :: ' ' :: (node.name.toList ++ '\x7b' ::
      ([','].intercalate (node.variants.map variantChars) ++ ['\x7d'])) := by
  have hjoined := chars_joined "," variantSignature node.variants
  have hcomma : (",".toList) = [','] := rfl
  rw [hcomma] at hjoined
  show ("enum " ++ node.name ++ "\x7b" ++ ",".intercalate (node.variants.map variantSignature) ++ "\x7d").toList = _
  simp only [String.toList_append, hjoined, List.append_assoc]
  rfl

theorem itemChars_state (node : StateNode) : itemChars (.state node) =
    's' :: 't' :: 'a' :: 't' :: 'e' :: ' ' :: (node.name.toList ++ ':' ::
      '[' :: ([',', ' '].intercalate (node.fields.map stateFieldChars) ++ [']'])) := by
  have hjoined := chars_joined ", " stateFieldSignature node.fields
  have hcomma : (", ".toList) = [',', ' '] := rfl
  rw [hcomma] at hjoined
  show ("state " ++ node.name ++ ":[" ++ ", ".intercalate (node.fields.map stateFieldSignature) ++ "]").toList = _
  simp only [String.toList_append, hjoined, List.append_assoc]
  rfl

theorem itemChars_agent (node : AgentNode) : itemChars (.agent node) = 'a' :: 'g' :: 'e' :: 'n' :: 't' :: ' ' :: node.name.toList :=
  @String.toList_append "agent " node.name

theorem itemChars_pipeline (node : PipelineNode) :
    itemChars (.pipeline node) = 'p' :: 'i' :: 'p' :: 'e' :: 'l' :: 'i' :: 'n' :: 'e' :: ' ' :: node.name.toList :=
  @String.toList_append "pipeline " node.name

theorem itemChars_safetyBound (node : SafetyBoundNode) :
    itemChars (.safetyBound node) = 's' :: 'a' :: 'f' :: "ety_bound ".toList ++ node.name.toList :=
  @String.toList_append "safety_bound " node.name

/-- The items begin with different words. -/
theorem kind_of_chars {item item' : Item} (h : itemChars item = itemChars item') :
    definitionKind item = definitionKind item' := by
  cases item <;> cases item' <;>
    simp [itemChars_function, itemChars_struct, itemChars_enum, itemChars_state, itemChars_agent, itemChars_pipeline,
      itemChars_safetyBound, definitionKind] at h ⊢

theorem spelt_function {node : FunctionNode} (h : (Item.function node).spelt = true) :
    isIdentifier node.name = true ∧ speltAll (node.parameters.map (·.ty)) = true ∧ (returned node.returnType).spelt = true := by
  simp only [Item.spelt, Bool.and_eq_true, List.all_eq_true] at h
  refine ⟨h.1.1, speltAll_iff.mpr (List.forall_mem_map.mpr h.1.2), ?_⟩
  cases hreturn : node.returnType with
  | none => rfl
  | some ty =>
    rw [hreturn] at h
    exact h.2

theorem fields_spelt {β : Type} {l : List β} {name : β → String} {ty : β → TypeNode}
    (h : (l.all fun field => isIdentifier (name field) && (ty field).spelt) = true) :
    ∀ b ∈ l, isIdentifier (name b) = true ∧ (ty b).spelt = true := by
  intro b hb
  have hfield := List.all_eq_true.mp h b hb
  rwa [Bool.and_eq_true] at hfield

/-- **A signature tells the name of an item, and what it is read as where it is no agent and no pipeline.** -/
theorem itemSignature_inj {item item' : Item} (h : item.spelt = true) (h' : item'.spelt = true)
    (heq : itemSignature item = itemSignature item') :
    item.name = item'.name ∧ definitionKind item = definitionKind item' ∧
      (isRoute item = false → SameInterface item item') := by
  have hchars : itemChars item = itemChars item' := congrArg String.toList heq
  have hkind := kind_of_chars hchars
  cases item with
  | function node =>
    cases item' <;> cases hkind
    rename_i node'
    obtain ⟨hname, hparameters, hreturn⟩ := spelt_function h
    obtain ⟨hname', hparameters', hreturn'⟩ := spelt_function h'
    rw [itemChars_function, itemChars_function] at hchars
    simp only [List.cons.injEq, true_and] at hchars
    obtain ⟨hsame, hafter⟩ := name_append hname hname' (by decide) (by decide) hchars
    obtain ⟨htypes, hafter⟩ := joined_types (by decide) (by decide) (by decide) (readsBack_types _ hparameters) hparameters' hafter
    simp only [List.cons.injEq, true_and] at hafter
    obtain ⟨hresult, -⟩ := readsBack_type _ hreturn _ _ _ hreturn' (by rw [stops_cons]; decide) (by rw [stops_cons]; decide)
      hafter
    exact ⟨hsame, rfl, fun _ => ⟨htypes, hresult⟩⟩
  | struct node =>
    cases item' <;> cases hkind
    rename_i node'
    simp only [Item.spelt, Bool.and_eq_true] at h h'
    rw [itemChars_struct, itemChars_struct] at hchars
    simp only [List.cons.injEq, true_and] at hchars
    obtain ⟨hsame, hafter⟩ := name_append h.1 h'.1 (by decide) (by decide) hchars
    obtain ⟨hfields, -⟩ := joined (by decide) (by decide) (by decide) (fun field _ => by
        cases hpublic : field.isPublic
        · exact ⟨'f', _, by rw [fieldChars_eq, hpublic]; rfl, by decide⟩
        · exact ⟨'t', _, by rw [fieldChars_eq, hpublic]; rfl, by decide⟩)
      (fun field hfield => ⟨fields_spelt h.2 field hfield, readsBack_field (fields_spelt h.2 field hfield)⟩)
      (fields_spelt h'.2) hafter
    exact ⟨hsame, rfl, fun _ => hfields⟩
  | enum node =>
    cases item' <;> cases hkind
    rename_i node'
    simp only [Item.spelt, Bool.and_eq_true] at h h'
    have hspelt : ∀ {variants : List EnumVariant}, (variants.all fun v => isIdentifier v.name && v.fields.all TypeNode.spelt) = true →
        ∀ v ∈ variants, isIdentifier v.name = true ∧ speltAll v.fields = true := by
      intro variants hall v hv
      have hvariant := List.all_eq_true.mp hall v hv
      rw [Bool.and_eq_true, List.all_eq_true] at hvariant
      exact ⟨hvariant.1, speltAll_iff.mpr hvariant.2⟩
    rw [itemChars_enum, itemChars_enum] at hchars
    simp only [List.cons.injEq, true_and] at hchars
    obtain ⟨hsame, hafter⟩ := name_append h.1 h'.1 (by decide) (by decide) hchars
    obtain ⟨hvariants, -⟩ := joined (by decide) (by decide) (by decide) (fun v hv => by
        obtain ⟨c, cs, hcs, hc⟩ := identifier_opens hv.1
        refine ⟨c, _, by rw [variantChars_eq, hcs, List.cons_append], ?_⟩
        rintro rfl
        exact absurd hc (by decide))
      (fun v hv => ⟨hspelt h.2 v hv, readsBack_variant (hspelt h.2 v hv)⟩) (hspelt h'.2) hafter
    exact ⟨hsame, rfl, fun _ => hvariants⟩
  | state node =>
    cases item' <;> cases hkind
    rename_i node'
    simp only [Item.spelt, Bool.and_eq_true] at h h'
    rw [itemChars_state, itemChars_state] at hchars
    simp only [List.cons.injEq, true_and] at hchars
    obtain ⟨hsame, hafter⟩ := name_append h.1 h'.1 (by decide) (by decide) hchars
    simp only [List.cons.injEq, true_and] at hafter
    obtain ⟨hfields, -⟩ := joined (by decide) (by decide) (by decide)
      (fun field _ => ⟨'(', _, stateFieldChars_eq field, by decide⟩)
      (fun field hfield => ⟨fields_spelt h.2 field hfield, readsBack_stateField (fields_spelt h.2 field hfield)⟩)
      (fields_spelt h'.2) hafter
    refine ⟨hsame, rfl, fun _ => ?_⟩
    rw [SameInterface, List.forall₂_map_left_iff, List.forall₂_map_right_iff]
    exact hfields.imp fun _ _ hfield => hfield.2
  | agent node =>
    cases item' <;> cases hkind
    rename_i node'
    rw [itemChars_agent, itemChars_agent] at hchars
    simp only [List.cons.injEq, true_and] at hchars
    exact ⟨String.toList_inj.mp hchars, rfl, (fun hroute => nomatch hroute)⟩
  | pipeline node =>
    cases item' <;> cases hkind
    rename_i node'
    rw [itemChars_pipeline, itemChars_pipeline] at hchars
    simp only [List.cons.injEq, true_and] at hchars
    exact ⟨String.toList_inj.mp hchars, rfl, (fun hroute => nomatch hroute)⟩
  | safetyBound node =>
    cases item' <;> cases hkind
    rename_i node'
    rw [itemChars_safetyBound, itemChars_safetyBound] at hchars
    simp only [List.cons_append, List.cons.injEq, true_and] at hchars
    exact ⟨String.toList_inj.mp (List.append_cancel_left hchars), rfl, fun _ => trivial⟩

/-! ### Lines of signatures -/

theorem not_mem_of_identifier {s : String} (h : isIdentifier s = true) {c : Char} (hc : isIdentContinue c = false) : c ∉ s.toList := by
  intro hmem
  rw [Package.continue_of_identifier h c hmem] at hc
  cases hc

mutual
theorem newline_not_mem_type : ∀ t : TypeNode, t.spelt = true → '\n' ∉ typeChars t
  | .reference lifetime mutable inner span, h => by
    simp only [TypeNode.spelt, Bool.and_eq_true] at h
    have hinner := newline_not_mem_type inner h.2
    have hlifetime : ∀ name ∈ lifetime, '\n' ∉ name.toList := fun name hname =>
      not_mem_of_identifier (by cases hname; exact h.1) (by decide)
    rw [typeChars_reference]
    cases lifetime with
    | none => cases mutable <;> simp [hinner]
    | some name => cases mutable <;> simp [hinner, hlifetime name rfl]
  | .array inner span, h => by
    have hinner := newline_not_mem_type inner h
    rw [typeChars_array]
    simp [hinner]
  | .tuple items span, h => by
    have hitems := newline_not_mem_types items h
    rw [typeChars_tuple]
    simp [not_mem_intercalate (by decide : '\n' ∉ [',']) hitems]
  | .path segments arguments span, h => by
    obtain ⟨-, hsegments, harguments⟩ := spelt_path h
    have hpath : '\n' ∉ (joinPath segments).toList := fun hmem =>
      absurd (joinPath_chars hsegments _ hmem) (by decide)
    have hitems := not_mem_intercalate (by decide : '\n' ∉ [',']) (newline_not_mem_types arguments harguments)
    rw [typeChars_path]
    split
    · simpa using hpath
    · simp [hpath, hitems]
theorem newline_not_mem_types : ∀ ts : List TypeNode, speltAll ts = true → ∀ l ∈ ts.map typeChars, '\n' ∉ l
  | [], _ => fun _ h => (nomatch h)
  | t :: ts, h => by
    rw [speltAll, Bool.and_eq_true] at h
    exact List.forall_mem_cons.mpr ⟨newline_not_mem_type t h.1, newline_not_mem_types ts h.2⟩
end

/-- A signature is a line. -/
theorem newline_not_mem_item {item : Item} (h : item.spelt = true) : '\n' ∉ itemChars item ∧ itemChars item ≠ [] := by
  have hjoined : ∀ {β : Type} {sep : List Char} {f : β → List Char} {l : List β}, '\n' ∉ sep → (∀ b ∈ l, '\n' ∉ f b) →
      '\n' ∉ sep.intercalate (l.map f) := fun hsep hf => not_mem_intercalate hsep (List.forall_mem_map.mpr hf)
  cases item with
  | function node =>
    obtain ⟨hname, hparameters, hreturn⟩ := spelt_function h
    have hlast : '\n' ∉ ("async=" ++ toString node.asynchronous).toList := by cases node.asynchronous <;> decide
    rw [itemChars_function]
    refine ⟨?_, List.cons_ne_nil _ _⟩
    simp only [List.mem_cons, List.mem_append, not_or]
    exact ⟨by decide, by decide, by decide, not_mem_of_identifier hname (by decide), by decide,
      not_mem_intercalate (by decide) (newline_not_mem_types _ hparameters), by decide, by decide, by decide,
      newline_not_mem_type _ hreturn, by decide, hlast⟩
  | struct node =>
    simp only [Item.spelt, Bool.and_eq_true] at h
    have hfields : ∀ field ∈ node.fields, '\n' ∉ fieldChars field := by
      intro field hfield
      obtain ⟨hname, hty⟩ := fields_spelt h.2 field hfield
      have hpublic : '\n' ∉ (toString field.isPublic).toList := by cases field.isPublic <;> decide
      rw [fieldChars_eq]
      simp [hpublic, not_mem_of_identifier hname (by decide : isIdentContinue '\n' = false), newline_not_mem_type _ hty]
    rw [itemChars_struct]
    simp [not_mem_of_identifier h.1 (by decide : isIdentContinue '\n' = false), hjoined (by decide : '\n' ∉ [',']) hfields]
  | enum node =>
    simp only [Item.spelt, Bool.and_eq_true] at h
    have hvariants : ∀ v ∈ node.variants, '\n' ∉ variantChars v := by
      intro v hv
      have hvariant := List.all_eq_true.mp h.2 v hv
      rw [Bool.and_eq_true, List.all_eq_true] at hvariant
      rw [variantChars_eq]
      simp [not_mem_of_identifier hvariant.1 (by decide : isIdentContinue '\n' = false),
        not_mem_intercalate (by decide : '\n' ∉ [',']) (newline_not_mem_types _ (speltAll_iff.mpr hvariant.2))]
    rw [itemChars_enum]
    simp [not_mem_of_identifier h.1 (by decide : isIdentContinue '\n' = false), hjoined (by decide : '\n' ∉ [',']) hvariants]
  | state node =>
    simp only [Item.spelt, Bool.and_eq_true] at h
    have hfields : ∀ field ∈ node.fields, '\n' ∉ stateFieldChars field := by
      intro field hfield
      obtain ⟨hname, hty⟩ := fields_spelt h.2 field hfield
      rw [stateFieldChars_eq]
      simp [not_mem_of_identifier hname (by decide : isIdentContinue '\n' = false), newline_not_mem_type _ hty]
    rw [itemChars_state]
    simp [not_mem_of_identifier h.1 (by decide : isIdentContinue '\n' = false), hjoined (by decide : '\n' ∉ [',', ' ']) hfields]
  | agent node =>
    rw [itemChars_agent]
    simp [not_mem_of_identifier h (by decide : isIdentContinue '\n' = false)]
  | pipeline node =>
    rw [itemChars_pipeline]
    simp [not_mem_of_identifier h (by decide : isIdentContinue '\n' = false)]
  | safetyBound node =>
    rw [itemChars_safetyBound]
    simp [not_mem_of_identifier h (by decide : isIdentContinue '\n' = false)]

/-- **What is hashed tells the signatures of the public items.** -/
theorem signatures_perm {name name' : String} {v v' : List ModuleSource} (h : ∀ i ∈ publicItems name v, i.spelt = true)
    (h' : ∀ i ∈ publicItems name' v', i.spelt = true) (heq : interfaceText name v = interfaceText name' v') :
    ((publicItems name v).map itemSignature).Perm ((publicItems name' v').map itemSignature) := by
  have hlines : ∀ {items : List Item}, (∀ i ∈ items, i.spelt = true) →
      ∀ line ∈ ((items.map itemSignature).insertionSort (· ≤ ·)).map String.toList, '\n' ∉ line ∧ line ≠ [] := by
    intro items hspelt line hline
    obtain ⟨text, htext, rfl⟩ := List.mem_map.mp hline
    obtain ⟨item, hitem, rfl⟩ := List.mem_map.mp ((List.mem_insertionSort _).mp htext)
    exact newline_not_mem_item (hspelt item hitem)
  have hchars := congrArg String.toList heq
  rw [interfaceText, interfaceText, String.toList_intercalate, String.toList_intercalate] at hchars
  have hsorted := List.map_injective_iff.mpr (fun _ _ => String.toList_inj.mp)
    (lines_eq (hlines h) (hlines h') hchars)
  refine (List.perm_insertionSort (· ≤ ·) _).symm.trans ?_
  rw [hsorted]
  exact List.perm_insertionSort _ _

/-! ### What the hash leaves out -/

/-- An item without its positions and its bodies. -/
def outline : Item → Item
  | .function node    => .function { node with
      parameters := node.parameters.map fun p => ⟨p.name, p.ty.bare, default⟩
      returnType := node.returnType.map TypeNode.bare
      body := .mk [] default
      span := default }
  | .struct node      => .struct { node with
      fields := node.fields.map fun field => ⟨field.isPublic, field.name, field.ty.bare, default⟩
      span := default }
  | .enum node        => .enum { node with
      variants := node.variants.map fun v => ⟨v.name, bareAll v.fields, default⟩
      span := default }
  | .state node       => .state { node with
      fields := node.fields.map fun field => ⟨field.name, field.ty.bare, none, default⟩
      span := default }
  | .agent node       => .agent { node with fields := [], span := default }
  | .pipeline node    => .pipeline { node with
      parameters := node.parameters.map fun p => ⟨p.name, p.ty.bare, default⟩
      returnType := node.returnType.map TypeNode.bare
      fields := []
      span := default }
  | .safetyBound node => .safetyBound { node with parameters := [], fields := [], span := default }

mutual
theorem typeSignature_bare : ∀ t : TypeNode, typeSignature t.bare = typeSignature t
  | .reference lifetime mutable inner span => by
    simp only [TypeNode.bare, typeSignature, typeSignature_bare inner]
  | .path segments arguments span => by
    have hempty : (bareAll arguments).isEmpty = arguments.isEmpty := by cases arguments <;> rfl
    simp only [TypeNode.bare, typeSignature, typeSignatures_bare arguments, hempty]
  | .array inner span => by rw [TypeNode.bare, typeSignature, typeSignature, typeSignature_bare inner]
  | .tuple items span => by rw [TypeNode.bare, typeSignature, typeSignature, typeSignatures_bare items]
theorem typeSignatures_bare : ∀ ts : List TypeNode, typeSignatures (bareAll ts) = typeSignatures ts
  | []      => rfl
  | t :: ts => by rw [bareAll, typeSignatures, typeSignatures, typeSignature_bare t, typeSignatures_bare ts]
end

theorem itemSignature_outline (item : Item) : itemSignature (outline item) = itemSignature item := by
  cases item with
  | function node =>
    simp only [outline, itemSignature, List.map_map, Option.map_map, Function.comp_def, typeSignature_bare]
  | struct node =>
    have hfield : ∀ field : StructField,
        fieldSignature ⟨field.isPublic, field.name, field.ty.bare, default⟩ = fieldSignature field := by
      intro field
      simp only [fieldSignature, typeSignature_bare]
    simp only [outline, itemSignature, List.map_map, Function.comp_def, hfield]
  | enum node =>
    have hvariant : ∀ v : EnumVariant, variantSignature ⟨v.name, bareAll v.fields, default⟩ = variantSignature v := by
      intro v
      simp only [variantSignature, ← typeSignatures_eq, typeSignatures_bare]
    simp only [outline, itemSignature, List.map_map, Function.comp_def, hvariant]
  | state node =>
    have hfield : ∀ field : StateField,
        stateFieldSignature ⟨field.name, field.ty.bare, none, default⟩ = stateFieldSignature field := by
      intro field
      simp only [stateFieldSignature, typeSignature_bare]
    simp only [outline, itemSignature, List.map_map, Function.comp_def, hfield]
  | agent node => rfl
  | pipeline node => rfl
  | safetyBound node => rfl

/-- **The hash does not see private items, bodies and positions, and in which file and order the public items stand.** -/
theorem interfaceText_outline {name name' : String} {v v' : List ModuleSource}
    (h : ((publicItems name v).map outline).Perm ((publicItems name' v').map outline)) :
    interfaceText name v = interfaceText name' v' := by
  have hsignatures : ((publicItems name v).map itemSignature).Perm ((publicItems name' v').map itemSignature) := by
    have hmapped := h.map itemSignature
    simpa only [List.map_map, Function.comp_def, itemSignature_outline] using hmapped
  rw [interfaceText, interfaceText, insertionSort_eq_of_perm hsignatures]

end

end Modules
end Syllog
