import Syllog.ParseItems
import Syllog.Interface
import Syllog.PackageIds
import Syllog.Places
/-!
# CheckSyl — what a text is accepted as

A text has one parse or none.  Where it has one, its tree is built unless a literal cannot be represented, and the builder reports
nothing else.  So the tree of a file that is accepted lies in the text as it should, and its names are identifiers: the parser is
one that packages can be compiled with (`sylParser`), interfaces of parsed modules are read back, and positions tell the
expressions of a file apart.
-/
namespace Syllog

namespace Ast

open Hir Syl Peg

/-! ## Names -/

section
variable {input : List Char}

mutual
theorem TypeNode.Formed.spelt (t : TypeNode) {lo hi : Nat} (h : TypeNode.Formed input lo t hi) : t.spelt = true := by
  cases t with
  | reference lifetime _ inner _ =>
    obtain ⟨hname, a, b, -, hinner⟩ := h
    have hlifetime : lifetime.all isIdentifier = true := by
      cases lifetime with
      | none => rfl
      | some name => exact hname name rfl
    rw [TypeNode.spelt, hlifetime, TypeNode.Formed.spelt inner hinner]
    rfl
  | path segments arguments _ =>
    obtain ⟨⟨hne, hnames⟩, a, b, -, harguments⟩ := h
    rw [TypeNode.spelt, speltAll_of_formed arguments harguments, List.all_eq_true.mpr hnames]
    cases segments with
    | nil => exact absurd rfl hne
    | cons segment segments => rfl
  | array inner _ =>
    obtain ⟨a, b, -, hinner⟩ := h
    exact TypeNode.Formed.spelt inner hinner
  | tuple items _ =>
    obtain ⟨a, b, -, hitems⟩ := h
    exact speltAll_of_formed items hitems

theorem speltAll_of_formed (ts : List TypeNode) {lo hi : Nat} (h : formedTypes input lo ts hi) : speltAll ts = true := by
  cases ts with
  | nil => rfl
  | cons t ts =>
    obtain ⟨mid, ht, hts⟩ := h
    rw [speltAll, TypeNode.Formed.spelt t ht, speltAll_of_formed ts hts]
    rfl
end

theorem all_of_inOrder {α : Type} {P : Nat → α → Nat → Prop} {ok : α → Bool} {xs : List α} {lo hi : Nat} (h : InOrder P lo xs hi)
    (hP : ∀ lo x hi, P lo x hi → ok x = true) : xs.all ok = true := by
  refine List.all_eq_true.mpr fun x hx => ?_
  obtain ⟨lo, hi, hx⟩ := h.exists_of_mem hx
  exact hP lo x hi hx

theorem Parameter.Formed.spelt {lo hi : Nat} {parameter : Parameter} (h : Parameter.Formed input lo parameter hi) :
    parameter.ty.spelt = true := by
  obtain ⟨-, a, b, -, hty⟩ := h
  exact hty.spelt

theorem StructField.Formed.spelt {lo hi : Nat} {field : StructField} (h : StructField.Formed input lo field hi) :
    (isIdentifier field.name && field.ty.spelt) = true := by
  obtain ⟨hname, a, b, -, hty⟩ := h
  rw [hname, hty.spelt, Bool.and_self]

theorem EnumVariant.Formed.spelt {lo hi : Nat} {v : EnumVariant} (h : EnumVariant.Formed input lo v hi) :
    (isIdentifier v.name && v.fields.all TypeNode.spelt) = true := by
  obtain ⟨hname, a, b, -, hfields⟩ := h
  rw [hname, all_of_inOrder (formedTypes_iff.mp hfields) fun _ t _ ht => ht.spelt, Bool.and_self]

theorem StateField.Formed.spelt {lo hi : Nat} {field : StateField} (h : StateField.Formed input lo field hi) :
    (isIdentifier field.name && field.ty.spelt) = true := by
  obtain ⟨hname, a, b, -, c, hty, -⟩ := h
  rw [hname, hty.spelt, Bool.and_self]

theorem Item.Formed.spelt {item : Item} {lo hi : Nat} (h : Item.Formed input lo item hi) : item.spelt = true := by
  obtain ⟨hname, a, b, -, hmembers⟩ := h
  change isIdentifier item.name = true at hname
  cases item with
  | struct node =>
    have hfields := all_of_inOrder hmembers fun _ _ _ hfield => hfield.spelt
    rw [Item.spelt, hfields, Bool.and_true]
    exact hname
  | enum node =>
    have hvariants := all_of_inOrder hmembers fun _ _ _ hv => hv.spelt
    rw [Item.spelt, hvariants, Bool.and_true]
    exact hname
  | function node =>
    obtain ⟨-, c, hparameters, d, -, hreturn, -⟩ := hmembers
    have hparameters := all_of_inOrder hparameters fun _ _ _ hparameter => hparameter.spelt
    have hreturn : node.returnType.all TypeNode.spelt = true := by
      cases hty : node.returnType with
      | none => rfl
      | some ty => exact (hreturn ty hty).spelt
    rw [Item.spelt, hparameters, hreturn, Bool.and_true, Bool.and_true]
    exact hname
  | state node =>
    have hfields := all_of_inOrder hmembers fun _ _ _ hfield => hfield.spelt
    rw [Item.spelt, hfields, Bool.and_true]
    exact hname
  | agent node => exact hname
  | pipeline node => exact hname
  | safetyBound node => exact hname

theorem SourceFile.Formed.named {file : SourceFile} (h : file.Formed input) : Package.Named file := by
  obtain ⟨c, d, -, himports, hitems⟩ := h.parts
  refine ⟨fun item hitem => ?_, fun node hnode => ?_⟩
  · obtain ⟨lo, hi, hitem⟩ := hitems.exists_of_mem hitem
    exact hitem.1
  · obtain ⟨lo, hi, hnode⟩ := himports.exists_of_mem hnode
    exact hnode.2.1

theorem SourceFile.Formed.spelt {file : SourceFile} (h : file.Formed input) : ∀ item ∈ file.items, item.spelt = true := by
  obtain ⟨c, d, -, -, hitems⟩ := h.parts
  intro item hitem
  obtain ⟨lo, hi, hitem⟩ := hitems.exists_of_mem hitem
  exact hitem.spelt

end

end Ast

namespace Syl

open Hir Peg Ast

/-! ## Literals -/

/-- What the text between the quotes of a JSON string stands for. -/
inductive Denotes : List Char → List Char → Prop
  | nil : Denotes [] []
  | plain {c : Char} {cs s : List Char} (hprintable : 0x20 ≤ c.toNat) (hquote : c ≠ '"') (hbackslash : c ≠ '\\')
      (hcs : Denotes cs s) : Denotes (c :: cs) (c :: s)
  | letter {e c : Char} {cs s : List Char} (he : escaped e = some c) (hcs : Denotes cs s) : Denotes ('\\' :: e :: cs) (c :: s)
  | unit {a b c d : Char} {cs s : List Char} (halone : hexNumber [a, b, c, d] < 0xD800 ∨ 0xDFFF < hexNumber [a, b, c, d])
      (hcs : Denotes cs s) : Denotes ('\\' :: 'u' :: a :: b :: c :: d :: cs) (Char.ofNat (hexNumber [a, b, c, d]) :: s)
  | pair {a b c d a' b' c' d' : Char} {cs s : List Char} (hhigh : 0xD800 ≤ hexNumber [a, b, c, d] ∧ hexNumber [a, b, c, d] ≤ 0xDBFF)
      (hlow : 0xDC00 ≤ hexNumber [a', b', c', d'] ∧ hexNumber [a', b', c', d'] ≤ 0xDFFF) (hcs : Denotes cs s) :
      Denotes ('\\' :: 'u' :: a :: b :: c :: d :: '\\' :: 'u' :: a' :: b' :: c' :: d' :: cs)
        (Char.ofNat (0x10000 + 0x400 * (hexNumber [a, b, c, d] - 0xD800) + (hexNumber [a', b', c', d'] - 0xDC00)) :: s)

theorem jsonText_of_denotes {cs s : List Char} (h : Denotes cs s) : jsonText (cs ++ ['"']) = some s := by
  induction h with
  | nil => rfl
  | plain hprintable hquote hbackslash _ ih =>
    rw [List.cons_append, jsonText]
    · rw [if_neg (Nat.not_lt.mpr hprintable), ih]
      rfl
    all_goals intros; simp_all
  | @letter e c cs s he _ ih =>
    rw [List.cons_append, List.cons_append, jsonText]
    · rw [he, ih]
      rfl
    all_goals (intros; simp_all [escaped])
  | unit halone _ ih =>
    unfold jsonText
    simp only [List.cons_append]
    rw [if_neg (by omega), if_neg (by omega), ih]
    rfl
  | pair hhigh hlow _ ih =>
    simp only [List.cons_append, jsonText]
    rw [if_neg (by omega), if_pos hhigh, if_pos hlow, ih]
    rfl

theorem denotes_of_jsonText {cs s : List Char} (h : jsonText cs = some s) : ∃ body, cs = body ++ ['"'] ∧ Denotes body s := by
  induction cs using jsonText.induct generalizing s with
  | case1 => rw [jsonText] at h; cases h
  | case2 =>
    rw [jsonText] at h
    cases h
    exact ⟨[], rfl, .nil⟩
  | case3 head tail => rw [jsonText] at h; cases h
  | case4 a b c d cs high =>
    rename_i hhalf
    unfold jsonText at h
    simp only at h
    rw [if_pos hhalf] at h
    cases h
  | case5 a b c d high halone hhigh a' b' c' d' cs low hlow =>
    rename_i ih
    unfold jsonText at h
    simp only at h
    rw [if_neg halone, if_pos hhigh, if_pos hlow] at h
    obtain ⟨t, ht, rfl⟩ := Option.map_eq_some_iff.mp h
    obtain ⟨body, rfl, hbody⟩ := ih ht
    exact ⟨_, rfl, .pair hhigh hlow hbody⟩
  | case6 a b c d high halone hhigh a' b' c' d' cs low =>
    rename_i hlow
    unfold jsonText at h
    simp only at h
    rw [if_neg halone, if_pos hhigh, if_neg hlow] at h
    cases h
  | case7 a b c d cs high halone hhigh =>
    rename_i hnone
    rw [jsonText, if_neg halone, if_pos hhigh] at h
    · cases h
    · exact hnone
  | case8 a b c d cs high halone hhigh =>
    rename_i ih
    have h : Option.map (fun t => Char.ofNat (hexNumber [a, b, c, d]) :: t) (jsonText cs) = some s := by
      unfold jsonText at h
      simp only at h
      rwa [if_neg halone, if_neg hhigh] at h
    obtain ⟨t, ht, rfl⟩ := Option.map_eq_some_iff.mp h
    obtain ⟨body, rfl, hbody⟩ := ih ht
    exact ⟨_, rfl, .unit (by omega) hbody⟩
  | case9 e cs hnone he =>
    rw [jsonText, he] at h
    · cases h
    · exact hnone
  | case10 e cs hnone c he ih =>
    rw [jsonText, he] at h
    · obtain ⟨t, ht, rfl⟩ := Option.map_eq_some_iff.mp h
      obtain ⟨body, rfl, hbody⟩ := ih ht
      exact ⟨_, rfl, .letter he hbody⟩
    · exact hnone
  | case11 c cs h₁ h₂ h₃ h₄ hlow =>
    rw [jsonText, if_pos hlow] at h
    · cases h
    all_goals assumption
  | case12 c cs h₁ h₂ h₃ h₄ hlow ih =>
    rw [jsonText, if_neg hlow] at h
    · obtain ⟨t, ht, rfl⟩ := Option.map_eq_some_iff.mp h
      obtain ⟨body, rfl, hbody⟩ := ih ht
      refine ⟨c :: body, rfl, .plain (Nat.not_lt.mp hlow) ?_ ?_ hbody⟩
      · rintro rfl
        cases body with
        | nil => exact h₂ _ _ rfl rfl
        | cons => exact h₂ _ _ rfl rfl
      · rintro rfl
        cases body with
        | nil => exact h₄ _ _ rfl rfl
        | cons => exact h₄ _ _ rfl rfl
    all_goals assumption

/-- **What a string literal stands for**: its text is read as JSON reads it. -/
theorem jsonString_iff {cs : List Char} {text : String} :
    jsonString cs = some text ↔ ∃ body, cs = '"' :: (body ++ ['"']) ∧ Denotes body text.toList := by
  constructor
  · intro h
    cases cs with
    | nil => cases h
    | cons c cs =>
      by_cases hc : c = '"'
      · subst hc
        obtain ⟨t, ht, rfl⟩ := Option.map_eq_some_iff.mp (show (jsonText cs).map String.ofList = some text from h)
        obtain ⟨body, rfl, hbody⟩ := denotes_of_jsonText ht
        exact ⟨body, rfl, by simpa using hbody⟩
      · rw [jsonString] at h
        · cases h
        · intros; simp_all
  · intro h
    obtain ⟨body, rfl, hbody⟩ := h
    rw [jsonString, jsonText_of_denotes hbody, Option.map_some, String.ofList_toList]

theorem parseInteger_iff {digits : List Char} {n : Int64} :
    parseInteger digits = some n ↔ decimal digits < 9223372036854775808 ∧ n.toInt = decimal digits := by
  rw [parseInteger]
  by_cases hle : decimal digits ≤ 9223372036854775807
  · have hvalue : (Int64.ofNat (decimal digits)).toInt = decimal digits := Int64.toInt_ofNat_of_lt (by omega)
    rw [if_pos hle, Option.some.injEq]
    refine ⟨fun h => ⟨by omega, h ▸ hvalue⟩, fun h => ?_⟩
    exact Int64.toInt_inj.mp (hvalue.trans h.2.symm)
  · rw [if_neg hle]
    exact ⟨fun h => (by cases h), fun h => absurd h.1 (by omega)⟩

/-- The grammar makes this pair of the text. -/
def Matches (source : String) (program : Pair Rule) : Prop :=
  ∃ c, Parses sylGrammar false (.rule .program) ⟨0, source.toList⟩ (some ([program], c))

theorem Matches.unique {source : String} {p q : Pair Rule} (hp : Matches source p) (hq : Matches source q) : p = q := by
  obtain ⟨c, hp⟩ := hp
  obtain ⟨c', hq⟩ := hq
  cases hp.unique hq
  rfl

/-- **A text has one parse or none**: the grammar decides every text, in one way. -/
theorem parses_once (input : List Char) : ∃! r, Parses sylGrammar false (.rule .program) ⟨0, input⟩ r := by
  obtain ⟨r, hr⟩ := parse_run sylLayering .program input
  exact ⟨r, run_sound _ hr, fun r' hr' => hr'.unique (run_sound _ hr)⟩

theorem parseProgram_cases (source : String) :
    (parseProgram source = none ∧ ∀ p, ¬Matches source p) ∨
      ∃ p, Matches source p ∧ parseProgram source = some (lowerProgram source.toList p) ∧
        Yields (readable p) (SourceFile.Formed source.toList) (lowerProgram source.toList p) := by
  obtain ⟨r, hr⟩ := parse_run sylLayering .program source.toList
  have hparses := run_sound _ hr
  have hparse : parse sylLayering .program source.toList = r.map (·.1) := parse_of_parses hparses
  -- not by their equation lemmas, for which Lean would run the parse
  cases r with
  | none =>
    refine .inl ⟨by delta parseProgram; rw [hparse]; rfl, fun p hp => ?_⟩
    obtain ⟨c, hp⟩ := hp
    cases hp.unique hparses
  | some z =>
    obtain ⟨ps, c⟩ := z
    obtain ⟨p, rfl, hyields⟩ := lowerProgram_yields hparses
    exact .inr ⟨p, ⟨c, hparses⟩, by delta parseProgram; rw [hparse]; rfl, hyields⟩

section
variable {texts : Texts} {file source : String}

/-- What a text is answered with: its tree, or one error. -/
theorem checkSyl_cases (texts : Texts) (file source : String) :
    ((∀ p, ¬Matches source p) ∧ checkSyl texts file source =
        ⟨none, [⟨"SYL0001", .error, (texts.syntaxError source).1, file, (texts.syntaxError source).2⟩]⟩) ∨
      ∃ p, Matches source p ∧
        ((readable p = true ∧ ∃ ast, ast.Formed source.toList ∧
            checkSyl texts file source = ⟨some ast, Validate.validate file ast⟩) ∨
          (readable p = false ∧ ∃ e : LowerError, e.ofLiteral = true ∧ checkSyl texts file source =
            ⟨none, [⟨"SYL0002", .error, "internal AST lowering failure: " ++ e.text texts, file, default⟩]⟩)) := by
  rcases parseProgram_cases source with ⟨hparse, hnone⟩ | ⟨p, hp, hparse, hyields⟩
  · exact .inl ⟨hnone, by delta checkSyl; rw [hparse]⟩
  · refine .inr ⟨p, hp, ?_⟩
    cases hlower : lowerProgram source.toList p with
    | ok ast =>
      rw [hlower] at hyields hparse
      exact .inl ⟨hyields.1, ast, hyields.2, by delta checkSyl; rw [hparse]⟩
    | error e =>
      rw [hlower] at hyields hparse
      exact .inr ⟨hyields.1, e, hyields.2, by delta checkSyl; rw [hparse]⟩

/-- The tree of a file that is accepted. -/
theorem formed_of_accepted {ast : SourceFile} (h : (checkSyl texts file source).ast = some ast) : ast.Formed source.toList := by
  rcases checkSyl_cases texts file source with ⟨-, hcheck⟩ | ⟨p, -, ⟨-, ast', hformed, hcheck⟩ | ⟨-, e, -, hcheck⟩⟩
  · rw [hcheck] at h
    cases h
  · rw [hcheck] at h
    cases h
    exact hformed
  · rw [hcheck] at h
    cases h

def plainTexts : Texts := ⟨fun _ => ("", default), fun _ => "", fun _ => ""⟩

end

/-! ## Packages -/

/-- The parser of the compiler. -/
def sylParser (texts : Texts) : Package.Parser where
  checkSyl := checkSyl texts
  named _ _ _ h := (formed_of_accepted h).named

/-- What is reported of a text are errors of its file. -/
theorem checkSyl_reports (texts : Texts) (file source : String) :
    Validate.Reports file (checkSyl texts file source).diagnostics := by
  rcases checkSyl_cases texts file source with ⟨-, hcheck⟩ | ⟨p, -, ⟨-, ast, -, hcheck⟩ | ⟨-, e, -, hcheck⟩⟩
  · rw [hcheck]
    exact Validate.reports_error _ _ _
  · rw [hcheck]
    exact Validate.reports_validate ast
  · rw [hcheck]
    exact Validate.reports_error _ _ _

section
open Package

theorem mem_parseSources {check : String → String → CheckResult} {source : PackageSource} {d : Diagnostic} :
    ∀ {sources : List PackageSource} {r : OrdMap String SourceFile × List CompilerDiagnostic}, source ∈ sources →
      d ∈ (check source.file source.source).diagnostics →
        (⟨parsePhase d.code, d⟩ : CompilerDiagnostic) ∈ (sources.foldl (parseSource check) r).2 := by
  have hkeeps : ∀ (sources : List PackageSource) (r : OrdMap String SourceFile × List CompilerDiagnostic)
      (e : CompilerDiagnostic), e ∈ r.2 → e ∈ (sources.foldl (parseSource check) r).2 := by
    intro sources
    induction sources with
    | nil => exact fun _ _ h => h
    | cons first rest ih => exact fun r e h => ih _ e (List.mem_append_left _ h)
  intro sources
  induction sources with
  | nil => intro r h; cases h
  | cons first rest ih =>
    intro r hsource hd
    rw [List.foldl_cons]
    rcases List.mem_cons.mp hsource with rfl | hsource
    · exact hkeeps rest _ _ (List.mem_append_right _ (List.mem_map_of_mem hd))
    · exact ih hsource hd

theorem not_mem_of_not_hasErrors {diagnostics : List CompilerDiagnostic} (h : hasErrors diagnostics = false)
    {d : CompilerDiagnostic} (hd : d ∈ diagnostics) : d.diagnostic.severity ≠ .error := by
  rw [hasErrors, List.any_eq_false] at h
  simpa using h d hd

theorem not_hasErrors_of_linked {sources : List PackageSource} {asts : OrdMap String SourceFile}
    {diagnostics : List CompilerDiagnostic} {hir : HirProgram} (h : (linkPackage sources asts diagnostics).hir = some hir) :
    hasErrors diagnostics = false := by
  by_contra herrors
  rw [Bool.not_eq_false] at herrors
  have hall : ∀ more, hasErrors (diagnostics ++ more) = true := fun more => by
    rw [hasErrors, List.any_append, ← hasErrors, herrors, Bool.true_or]
  simp only [linkPackage, hall, if_true] at h
  cases h

theorem silent_of_compiled {texts : Texts} {sources : List PackageSource} {hir : HirProgram}
    (h : (compilePackage (checkSyl texts) sources).hir = some hir) {source : PackageSource} (hsource : source ∈ sources) :
    (checkSyl texts source.file source.source).diagnostics = [] := by
  rw [List.eq_nil_iff_forall_not_mem]
  intro d hd
  have hsorted : source ∈ sortedSources sources := (List.mem_insertionSort _).mpr hsource
  have herror := (checkSyl_reports texts source.file source.source d hd).2
  rw [compilePackage] at h
  by_cases hempty : sortedSources sources = []
  · rw [hempty] at hsorted
    cases hsorted
  · by_cases hduplicates : hasErrors (duplicateErrors (sortedSources sources)) = true
    · simp only [if_neg hempty, if_pos hduplicates] at h
      cases h
    · simp only [if_neg hempty, if_neg hduplicates] at h
      split at h
      · cases h
      · rename_i asts diagnostics hparse
        have hdiagnostics : (parseSources (checkSyl texts) (sortedSources sources) (duplicateErrors (sortedSources sources))).2 =
            diagnostics := congrArg Prod.snd hparse
        have hmem : (⟨parsePhase d.code, d⟩ : CompilerDiagnostic) ∈ diagnostics := by
          rw [← hdiagnostics]
          exact mem_parseSources hsorted hd
        exact not_mem_of_not_hasErrors (not_hasErrors_of_linked h) hmem herror

end

/-! ## Interfaces -/

section
open Modules

/-- The file holds the tree of an accepted text. -/
def Accepted (source : ModuleSource) : Prop :=
  ∃ (texts : Texts) (text : String), (checkSyl texts source.file text).ast = some source.ast

theorem publicItems_spelt {name : String} {v : List ModuleSource} (hv : ∀ source ∈ v, Accepted source) :
    ∀ item ∈ publicItems name v, item.spelt = true := by
  intro item hitem
  rw [publicItems, List.mem_flatMap] at hitem
  obtain ⟨source, hsource, hitem⟩ := hitem
  obtain ⟨texts, text, haccepted⟩ := hv source (List.mem_of_mem_filter hsource)
  exact (formed_of_accepted haccepted).spelt item (List.mem_of_mem_filter hitem)

end

/-! ## Expressions -/

/-- A pair that a rule of the grammar makes of a text. -/
theorem built_of_parse {r : Rule} {input : List Char} {p : Pair Rule} (hkind : sylGrammar.kind r ≠ .silent)
    (h : parse sylLayering r input = some [p]) : ∃ d hi, Built d r 0 p hi := by
  obtain ⟨c, hparses⟩ := parse_eq_some h
  have hfits := hparses.fits sylLayering.known_body [p] c rfl rfl (Pair.heights [p]) (Nat.le_refl _)
  rw [fits_rule hkind] at hfits
  obtain ⟨q, hq, heq⟩ := hfits
  cases heq
  exact ⟨_, _, hq⟩

end Syl

end Syllog
