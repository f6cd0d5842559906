import Syllog.VerifyPaths
/-!
# VerifyExact — the verifier's loops and the paths of a function

A path is the list of the blocks it has run through.  What the two loops compute at a block is what holds at the end of
every path to it: the locals assigned somewhere along it, and the locals whose last gain or loss along it was a gain.
-/
namespace Syllog
namespace Mir

open Dataflow

/-! ## Paths -/

/-- A path from the entry to a block, with the blocks run before it. -/
inductive Path (f : MirFunction) : Nat → List BasicBlock → Prop
  | entry : Path f 0 []
  | next {i s : Nat} {bs : List BasicBlock} {b : BasicBlock} (walk : Path f i bs) (block : f.blocks[i]? = some b)
      (step : s ∈ b.successors) (target : s < f.blocks.length) : Path f s (bs ++ [b])

/-- A block assigns a whole local, in a statement or by its call. -/
def BasicBlock.Assigns (b : BasicBlock) (l : Nat) : Prop :=
  (∃ value, .assign (.loc l) value ∈ b.statements) ∨ ∃ callee args next, b.terminator = some (.call callee args (.loc l) next)

/-- What happens to the ownership of a local. -/
inductive OwnershipEvent where
  | gained (l : Nat)
  | lost (l : Nat)

def Operand.events : Operand → List OwnershipEvent
  | .move l => [.lost l]
  | _       => []

def Rvalue.events : Rvalue → List OwnershipEvent
  | .borrow _ _           => []
  | .use o                => o.events
  | .discriminant o       => o.events
  | .aggregate _ _ fields => fields.flatMap Operand.events
  | .binary _ left right  => left.events ++ right.events

def Place.events : Place → List OwnershipEvent
  | .loc l     => [.gained l]
  | .field _ _ => []

def Statement.events : Statement → List OwnershipEvent
  | .assign destination value => value.events ++ destination.events
  | .drop place               => [.lost (placeLocal place)]

def Terminator.events : Terminator → List OwnershipEvent
  | .switchInt value _ _       => value.events
  | .call _ args destination _ => args.flatMap Operand.events ++ destination.events
  | .ret                       => []
  | .goto _                    => []

def BasicBlock.events (b : BasicBlock) : List OwnershipEvent :=
  b.statements.flatMap Statement.events ++ b.terminator.elim [] Terminator.events

def OwnershipEvent.apply (owned : Finset Nat) : OwnershipEvent → Finset Nat
  | .gained l => insert l owned
  | .lost l   => owned.erase l

/-- The locals owned after a path: the parameters at first, then what it gains and loses in turn. -/
def ownedAfter (f : MirFunction) (path : List BasicBlock) : Finset Nat :=
  (path.flatMap BasicBlock.events).foldl OwnershipEvent.apply (parameters f)

/-! ## The transfers along a path -/

theorem foldl_operand (o : Operand) (S : Finset Nat) : o.events.foldl OwnershipEvent.apply S = consumeOperand o S := by
  cases o <;> rfl

theorem foldl_operands : ∀ (os : List Operand) (S : Finset Nat),
    (os.flatMap Operand.events).foldl OwnershipEvent.apply S = consumeOperands os S
  | [], _ => rfl
  | o :: os, S => by
    rw [List.flatMap_cons, List.foldl_append, foldl_operand, foldl_operands os]
    rfl

theorem foldl_rvalue (value : Rvalue) (S : Finset Nat) : value.events.foldl OwnershipEvent.apply S = consumeRvalue value S := by
  cases value with
  | borrow mutable place => rfl
  | use o => exact foldl_operand o S
  | discriminant o => exact foldl_operand o S
  | aggregate ty d fields => exact foldl_operands fields S
  | binary operator left right =>
    rw [Rvalue.events, List.foldl_append, foldl_operand, foldl_operand]
    rfl

theorem foldl_place (place : Place) (S : Finset Nat) : place.events.foldl OwnershipEvent.apply S = insertPlace place S := by
  cases place <;> rfl

theorem foldl_statement (s : Statement) (S : Finset Nat) :
    s.events.foldl OwnershipEvent.apply S = transferStatement S s := by
  cases s with
  | assign destination value =>
    rw [Statement.events, List.foldl_append, foldl_rvalue, foldl_place]
    rfl
  | drop place => rfl

theorem foldl_statements : ∀ (ss : List Statement) (S : Finset Nat),
    (ss.flatMap Statement.events).foldl OwnershipEvent.apply S = ss.foldl transferStatement S
  | [], _ => rfl
  | s :: ss, S => by rw [List.flatMap_cons, List.foldl_append, foldl_statement, foldl_statements ss, List.foldl_cons]

theorem foldl_terminator (t : Terminator) (S : Finset Nat) : t.events.foldl OwnershipEvent.apply S = consumeTerminator t S := by
  cases t with
  | ret => rfl
  | goto target => rfl
  | switchInt value targets otherwise => exact foldl_operand value S
  | call callee args destination next =>
    rw [Terminator.events, List.foldl_append, foldl_operands, foldl_place]
    rfl

theorem foldl_block (b : BasicBlock) (S : Finset Nat) : b.events.foldl OwnershipEvent.apply S = transferBlock b S := by
  unfold BasicBlock.events transferBlock
  rw [List.foldl_append, foldl_statements]
  cases b.terminator with
  | none => rfl
  | some t => exact foldl_terminator t _

theorem foldl_blocks : ∀ (bs : List BasicBlock) (S : Finset Nat),
    (bs.flatMap BasicBlock.events).foldl OwnershipEvent.apply S = bs.foldl (fun S b => transferBlock b S) S
  | [], _ => rfl
  | b :: bs, S => by rw [List.flatMap_cons, List.foldl_append, foldl_block, foldl_blocks bs, List.foldl_cons]

theorem mem_insertPlace_iff {l : Nat} {place : Place} {S : Finset Nat} : l ∈ insertPlace place S ↔ place = .loc l ∨ l ∈ S := by
  cases place with
  | loc k => simp [insertPlace, Finset.mem_insert, eq_comm]
  | field base k => simp [insertPlace]

theorem mem_foldl_defineStatement {l : Nat} : ∀ {ss : List Statement} {S : Finset Nat},
    l ∈ ss.foldl defineStatement S ↔ l ∈ S ∨ ∃ value, .assign (.loc l) value ∈ ss
  | [], S => by simp
  | s :: ss, S => by
    rw [List.foldl_cons, mem_foldl_defineStatement]
    cases s with
    | assign destination value =>
      simp only [defineStatement, mem_insertPlace_iff, List.mem_cons, Statement.assign.injEq]
      constructor
      · rintro ((rfl | h) | ⟨v, hv⟩)
        · exact .inr ⟨value, .inl ⟨rfl, rfl⟩⟩
        · exact .inl h
        · exact .inr ⟨v, .inr hv⟩
      · rintro (h | ⟨v, ⟨rfl, -⟩ | hv⟩)
        · exact .inl (.inr h)
        · exact .inl (.inl rfl)
        · exact .inr ⟨v, hv⟩
    | drop place => simp [defineStatement]

theorem mem_defineBlock_iff {l : Nat} {b : BasicBlock} {S : Finset Nat} : l ∈ defineBlock b S ↔ l ∈ S ∨ b.Assigns l := by
  unfold defineBlock BasicBlock.Assigns
  cases ht : b.terminator with
  | none => simp [mem_foldl_defineStatement]
  | some t =>
    cases t with
    | call callee args destination next =>
      simp only [mem_insertPlace_iff, mem_foldl_defineStatement, Option.some.injEq, Terminator.call.injEq]
      constructor
      · rintro (rfl | h | h)
        · exact .inr (.inr ⟨_, _, _, rfl, rfl, rfl, rfl⟩)
        · exact .inl h
        · exact .inr (.inl h)
      · rintro (h | h | ⟨_, _, _, -, -, rfl, -⟩)
        · exact .inr (.inl h)
        · exact .inr (.inr h)
        · exact .inl rfl
    | _ => simp [mem_foldl_defineStatement]

theorem mem_foldl_defineBlock {l : Nat} : ∀ {bs : List BasicBlock} {S : Finset Nat},
    l ∈ bs.foldl (fun S b => defineBlock b S) S ↔ l ∈ S ∨ ∃ b ∈ bs, b.Assigns l
  | [], S => by simp
  | b :: bs, S => by simp [List.foldl_cons, mem_foldl_defineBlock, mem_defineBlock_iff, or_assoc]

/-- The walks of an analysis that works block by block are the paths. -/
theorem carries_iff_path {f : MirFunction} {a : Analysis Nat} {g : BasicBlock → Finset Nat → Finset Nat}
    (hsucc : a.succ = successorsAt f) (htransfer : ∀ {i b}, f.blocks[i]? = some b → ∀ S, a.transfer i S = g b S)
    {start : Finset Nat} {i : Nat} {S : Finset Nat} :
    Carries a f.blocks.length start i S ↔ ∃ bs, Path f i bs ∧ S = bs.foldl (fun S b => g b S) start := by
  constructor
  · intro h
    induction h with
    | zero => exact ⟨[], .entry, rfl⟩
    | @edge i s S walk source step target ih =>
      obtain ⟨bs, hpath, rfl⟩ := ih
      have hb : f.blocks[i]? = some f.blocks[i] := List.getElem?_eq_getElem source
      rw [hsucc, successorsAt_of_block hb] at step
      refine ⟨bs ++ [f.blocks[i]], .next hpath hb step target, ?_⟩
      rw [htransfer hb, List.foldl_append]
      rfl
  · rintro ⟨bs, hpath, rfl⟩
    induction hpath with
    | entry => exact .zero
    | @next i s bs b walk block step target ih =>
      rw [List.foldl_append, List.foldl_cons, List.foldl_nil, ← htransfer block]
      refine .edge ih (List.getElem?_eq_some_iff.1 block).1 ?_ target
      rw [hsucc, successorsAt_of_block block]
      exact step

theorem ownership_carries {f : MirFunction} {i : Nat} {S : Finset Nat} :
    Carries (ownershipAnalysis f) f.blocks.length (parameters f) i S ↔ ∃ bs, Path f i bs ∧ S = ownedAfter f bs := by
  rw [carries_iff_path (g := transferBlock) rfl (fun hb S => by simp only [ownershipAnalysis, hb])]
  simp only [ownedAfter, foldl_blocks]

theorem initialization_carries {f : MirFunction} {i : Nat} {S : Finset Nat} :
    Carries (initializationAnalysis f) f.blocks.length (parameters f) i S ↔
      ∃ bs, Path f i bs ∧ S = bs.foldl (fun S b => defineBlock b S) (parameters f) :=
  carries_iff_path rfl (fun hb S => by simp only [initializationAnalysis, hb])

/-! ## What the loops compute -/

section
variable {f : MirFunction} {a : Analysis Nat} {inc : Incoming Nat}

/-- What the loop holds at a block is carried by every walk to it, where pinned blocks hold what every walk carries. -/
theorem Flow.subset_carries (h : Flow f a inc) (hmono : ∀ i S T, S ⊆ T → a.transfer i S ⊆ a.transfer i T)
    (hzero : ∀ st, inc[0]? = some (some st) → st ⊆ parameters f)
    (hpinned : ∀ s S st, a.pinned s = true → Carries a f.blocks.length (parameters f) s S → inc[s]? = some (some st) → st ⊆ S)
    {i : Nat} {S : Finset Nat} (hwalk : Carries a f.blocks.length (parameters f) i S) :
    ∀ st, inc[i]? = some (some st) → st ⊆ S := by
  induction hwalk with
  | zero => exact hzero
  | @edge i s S walk source step target ih =>
    intro st hst
    have hb : f.blocks[i]? = some f.blocks[i] := List.getElem?_eq_getElem source
    cases hp : a.pinned s with
    | true => exact hpinned s _ st hp (.edge walk source step target) hst
    | false =>
      have hreach : (reachableBlocks f)[i]? = some true := by
        have hwalk := walk.walk
        rw [h.succ] at hwalk
        exact (reachable_iff _ _ (Nat.zero_lt_of_lt source) i).2 hwalk
      obtain ⟨st', hst'⟩ := (h.isSome_iff i).2 hreach
      exact (h.stable i st' hst' s step hp st hst).trans (hmono i _ _ (ih st' hst'))

/-- Every set is within the function's locals. -/
theorem Flow.subset_locals (h : Flow f a inc) (hparams : f.parameterCount < f.locals.length) {i : Nat} {st : Finset Nat}
    (hi : inc[i]? = some (some st)) : st ⊆ localUniverse f := by
  have hlocals : parameters f ⊆ localUniverse f := by
    intro l hl
    obtain ⟨k, hk, rfl⟩ := Finset.mem_image.mp hl
    have := Finset.mem_range.mp hk
    exact Finset.mem_range.mpr (by omega)
  obtain ⟨st', hst', hsub⟩ := h.below.of_some hi
  refine hsub.trans ?_
  rcases Nat.eq_zero_or_pos i with rfl | hpos
  · have hlen := (List.getElem?_eq_some_iff.1 hst').1
    rw [startIncoming_length] at hlen
    rw [startIncoming_zero f hlen] at hst'
    cases hst'
    exact hlocals
  · rw [startIncoming_pos f hpos] at hst'
    obtain ⟨r, -, hr⟩ := Option.map_eq_some_iff.mp hst'
    split_ifs at hr
    cases hr
    exact Finset.Subset.refl _

/-- Blocks no path leads to take no part. -/
theorem Flow.eq_none (h : Flow f a inc) {i : Nat} (hi : i < f.blocks.length) (hnone : ¬ ∃ bs, Path f i bs) :
    inc[i]? = some none := by
  have hlt : i < inc.length := by
    rw [h.below.length, startIncoming_length]
    exact hi
  rw [List.getElem?_eq_getElem hlt]
  cases hinc : inc[i] with
  | none => rfl
  | some st =>
    have hreach := (h.isSome_iff i).1 ⟨st, by rw [List.getElem?_eq_getElem hlt, hinc]⟩
    have hwalk := (reachable_iff _ _ (Nat.zero_lt_of_lt hi) i).1 hreach
    obtain ⟨S, hS⟩ := exists_carries (ownershipAnalysis f) f.blocks.length (parameters f) hwalk
    obtain ⟨bs, hbs, -⟩ := ownership_carries.mp hS
    exact absurd ⟨bs, hbs⟩ hnone

theorem Flow.exists_of_path (h : Flow f a inc) {i : Nat} {bs : List BasicBlock} (hpath : Path f i bs) (h0 : 0 < f.blocks.length) :
    ∃ st, inc[i]? = some (some st) := by
  have hwalk := (ownership_carries.mpr ⟨bs, hpath, rfl⟩ : Carries (ownershipAnalysis f) _ _ _ _).walk
  exact (h.isSome_iff i).2 ((reachable_iff _ _ h0 i).2 hwalk)

end

theorem initializationAnalysis_separable (f : MirFunction) : Separable (initializationAnalysis f) := by
  intro i S T l h hl
  simp only [initializationAnalysis] at hl ⊢
  split
  · rename_i b hb
    rw [hb] at hl
    rw [mem_defineBlock_iff] at hl ⊢
    exact hl.imp_left h
  · rename_i hb
    rw [hb] at hl
    exact h hl

/-- The locals assigned on every path. -/
theorem mem_definiteInitialization_iff {f : MirFunction} (hparams : f.parameterCount < f.locals.length) {i : Nat}
    {st : Finset Nat} (hi : (definiteInitialization f)[i]? = some (some st)) (l : Nat) :
    l ∈ st ↔ l < f.locals.length ∧ ∀ bs, Path f i bs → l ∈ parameters f ∨ ∃ b ∈ bs, b.Assigns l := by
  have hflow := definiteInitialization_flow f
  have hcarried : ∀ S, Carries (initializationAnalysis f) f.blocks.length (parameters f) i S → st ⊆ S := by
    intro S hS
    refine hflow.subset_carries (fun i S T hST l hl => initializationAnalysis_separable f i S T l (fun h => hST h) hl) ?_ ?_ hS
      st hi
    · intro st hst
      have hlen := (List.getElem?_eq_some_iff.1 hst).1
      rw [hflow.below.length, startIncoming_length] at hlen
      rw [definiteInitialization_zero f hlen] at hst
      cases hst
      exact Finset.Subset.refl _
    · intro s S st hs hS hst
      -- the entry is pinned to the parameters, and a path keeps them
      have hs0 : s = 0 := by simpa [initializationAnalysis] using hs
      subst hs0
      have hlen := (List.getElem?_eq_some_iff.1 hst).1
      rw [hflow.below.length, startIncoming_length] at hlen
      rw [definiteInitialization_zero f hlen] at hst
      cases hst
      obtain ⟨bs, -, rfl⟩ := initialization_carries.mp hS
      exact fun l hl => mem_foldl_defineBlock.mpr (.inl hl)
  constructor
  · intro hl
    refine ⟨Finset.mem_range.mp (hflow.subset_locals hparams hi hl), fun bs hbs => ?_⟩
    exact mem_foldl_defineBlock.mp (hcarried _ (initialization_carries.mpr ⟨bs, hbs, rfl⟩) hl)
  · rintro ⟨hlt, hall⟩
    refine mem_of_carries rfl (initializationAnalysis_separable f) hlt hi fun S hS => ?_
    obtain ⟨bs, hbs, rfl⟩ := initialization_carries.mp hS
    exact mem_foldl_defineBlock.mpr (hall bs hbs)

/-- The locals owned at the end of every path. -/
theorem mem_ownedOnEntry_iff {f : MirFunction} (hparams : f.parameterCount < f.locals.length) {i : Nat} {owned : Finset Nat}
    (hi : (ownedOnEntry f)[i]? = some (some owned)) (l : Nat) :
    l ∈ owned ↔ l < f.locals.length ∧ ∀ bs, Path f i bs → l ∈ ownedAfter f bs := by
  have hflow := ownedOnEntry_flow f
  constructor
  · intro hl
    refine ⟨Finset.mem_range.mp (hflow.subset_locals hparams hi hl), fun bs hbs => ?_⟩
    refine hflow.subset_carries (fun i S T hST l hl => ownershipAnalysis_separable f i S T l (fun h => hST h) hl) ?_ ?_
      (ownership_carries.mpr ⟨bs, hbs, rfl⟩) owned hi hl
    · intro st hst
      have hlen := (List.getElem?_eq_some_iff.1 hst).1
      rw [hflow.below.length, startIncoming_length] at hlen
      obtain ⟨st', hst', hsub⟩ := ownedOnEntry_zero f hlen
      cases hst.symm.trans hst'
      exact hsub
    · intro s S st hs
      cases hs
  · rintro ⟨hlt, hall⟩
    refine ownedOnEntry_of_paths hlt hi fun S hS => ?_
    obtain ⟨bs, hbs, rfl⟩ := ownership_carries.mp hS
    exact hall bs hbs

/-- **The verifier's dataflow is exact**: both loops end, at a block some path leads to with what holds after every path to
it, and with nothing at the others. -/
theorem dataflow_exact {f : MirFunction} (hblocks : f.blocks ≠ []) (hparams : f.parameterCount < f.locals.length) :
    Solves (initializationAnalysis f) (startIncoming f) (definiteInitialization f) ∧
      Solves (ownershipAnalysis f) (startIncoming f) (ownedOnEntry f) ∧
      ∀ i < f.blocks.length,
        ((∃ bs, Path f i bs) → ∃ defined owned,
          (definiteInitialization f)[i]? = some (some defined) ∧ (ownedOnEntry f)[i]? = some (some owned) ∧
          (∀ l, l ∈ defined ↔ l < f.locals.length ∧ ∀ bs, Path f i bs → l ∈ parameters f ∨ ∃ b ∈ bs, b.Assigns l) ∧
          ∀ l, l ∈ owned ↔ l < f.locals.length ∧ ∀ bs, Path f i bs → l ∈ ownedAfter f bs) ∧
        ((¬ ∃ bs, Path f i bs) → (definiteInitialization f)[i]? = some none ∧ (ownedOnEntry f)[i]? = some none) := by
  have h0 : 0 < f.blocks.length := List.length_pos_iff.mpr hblocks
  refine ⟨solves_fixpoint _ _, solves_fixpoint _ _, fun i hi => ⟨?_, fun hnone => ?_⟩⟩
  · rintro ⟨bs, hbs⟩
    obtain ⟨defined, hdefined⟩ := (definiteInitialization_flow f).exists_of_path hbs h0
    obtain ⟨owned, howned⟩ := (ownedOnEntry_flow f).exists_of_path hbs h0
    exact ⟨defined, owned, hdefined, howned, mem_definiteInitialization_iff hparams hdefined,
      mem_ownedOnEntry_iff hparams howned⟩
  · exact ⟨(definiteInitialization_flow f).eq_none hi hnone, (ownedOnEntry_flow f).eq_none hi hnone⟩

/-- A string moved away in a loop that leads back to the entry. -/
def loopFunction : MirFunction :=
  { id := ⟨0, 0⟩, parameterCount := 2, returnType := .unit, locals := [.unit, .string, .bool, .string]
    blocks := [⟨[.assign (.loc 3) (.use (.move 1))], some (.switchInt (.copy 2) [(0, 0)] 1)⟩,
      ⟨[.assign (.loc 0) (.use (.const .unit))], some .ret⟩] }

/-- The parameter is defined at the loop's exit, and owned there on no path. -/
theorem loopFunction_exit : ∃ defined owned, (definiteInitialization loopFunction)[1]? = some (some defined) ∧
    (ownedOnEntry loopFunction)[1]? = some (some owned) ∧ 1 ∈ defined ∧ 1 ∉ owned := by
  have hpath : ∃ bs, Path loopFunction 1 bs := ⟨_, .next .entry rfl (by decide) (by decide)⟩
  obtain ⟨defined, owned, hdefined, howned, hmem, hown⟩ :=
    ((dataflow_exact (f := loopFunction) (by decide) (by decide)).2.2 1 (by decide)).1 hpath
  refine ⟨defined, owned, hdefined, howned, (hmem 1).mpr ⟨by decide, fun bs _ => .inl (by decide)⟩, fun h => ?_⟩
  have hlast := ((hown 1).mp h).2 _ (.next .entry rfl (by decide) (by decide))
  exact absurd hlast (by decide)

end Mir
end Syllog
