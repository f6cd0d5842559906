import Syllog.Frames
import Syllog.Lines
/-!
# LocalFrames — the frames of a local model

`read_frames` of the local provider: the lines of a process or a socket, each a frame, however the reads fall.  The limit is
tested on what is pending after a read, before its lines are taken off, so it is a limit on a line and what was read behind
it.  `canon` is what the lines alone come to; every way to read a stream agrees with it exactly when no line has the rest of
a read behind it that goes beyond the limit (`independent_iff`).  The receiver stays open.
-/
namespace Syllog
namespace Transport

/-! ## Reading -/

def maxLocalFrameBytes : Nat := 1024 * 1024

def localLimit : ProviderError := protocol "local model frame exceeded one megabyte"

/-- The frames sent, and how it ended. -/
abbrev Sent := List TransportFrame × Except ProviderError Unit

/-- Goes on after what ended well. -/
def Sent.follow (first next : Sent) : Sent :=
  match first.2 with
  | .error _ => first
  | .ok ()   => (first.1 ++ next.1, next.2)

/-- One line: a frame, unless it is blank. -/
def takeFrame (line : Bytes) : Sent :=
  if stripCr line = [] then ([], .ok ())
  else match fromUtf8 (stripCr line) with
    | none      => ([], .error (protocol "local model frame is not UTF-8"))
    | some text => ([.data text], .ok ())

def takeFrames : List Bytes → Sent
  | []            => ([], .ok ())
  | line :: lines => (takeFrame line).follow (takeFrames lines)

/-- What is pending when the stream ends. -/
def finalFrame (pending : Bytes) : Sent :=
  if pending = [] then ([], .ok ())
  else match fromUtf8 pending with
    | none      => ([], .error (protocol "final local model frame is not UTF-8"))
    | some text => ([.data text], .ok ())

/-- The loop of `read_frames`: a read of nothing is the end of the stream. -/
def readFrom (pending : Bytes) : List (Except ProviderError Bytes) → Sent
  | []                => finalFrame pending
  | .error e :: _     => ([], .error e)
  | .ok [] :: _       => finalFrame pending
  | .ok (b :: bs) :: reads =>
    let pending := pending ++ b :: bs
    if maxLocalFrameBytes < pending.length then ([], .error localLimit)
    else (takeFrames (Lines.full lineFeed pending)).follow (readFrom (Lines.rest lineFeed pending) reads)

def readFrames (reads : List (Except ProviderError Bytes)) : Sent := readFrom [] reads

/-! ## Sequencing -/

namespace Sent

@[simp] theorem follow_ok (frames : List TransportFrame) (next : Sent) :
    Sent.follow (frames, .ok ()) next = (frames ++ next.1, next.2) := rfl

@[simp] theorem follow_error (frames : List TransportFrame) (e : ProviderError) (next : Sent) :
    Sent.follow (frames, .error e) next = (frames, .error e) := rfl

theorem follow_assoc (a b c : Sent) : (a.follow b).follow c = a.follow (b.follow c) := by
  obtain ⟨frames, result⟩ := a
  cases result with
  | error e => rfl
  | ok u =>
    obtain ⟨frames', result'⟩ := b
    cases result' <;> simp [follow]

end Sent

theorem takeFrames_append (more : List Bytes) : ∀ lines : List Bytes,
    takeFrames (lines ++ more) = (takeFrames lines).follow (takeFrames more)
  | [] => rfl
  | line :: lines => by
    rw [List.cons_append, takeFrames, takeFrames_append more lines, takeFrames, Sent.follow_assoc]

/-- A line that is read within the limit and is text. -/
def Fine (line : Bytes) : Prop := line.length + 1 ≤ maxLocalFrameBytes ∧ (fromUtf8 (stripCr line)).isSome = true

theorem takeFrame_ok {line : Bytes} : (takeFrame line).2 = .ok () ↔ (fromUtf8 (stripCr line)).isSome = true := by
  unfold takeFrame
  split
  · rename_i hblank
    have hempty : fromUtf8 [] = some "" := fromUtf8_ofList []
    rw [hblank, hempty]
    exact ⟨fun _ => rfl, fun _ => rfl⟩
  · cases fromUtf8 (stripCr line) with
    | none => exact ⟨(fun h => nomatch h), (fun h => nomatch h)⟩
    | some text => exact ⟨fun _ => rfl, fun _ => rfl⟩

theorem takeFrames_ok : ∀ {lines : List Bytes}, (takeFrames lines).2 = .ok () ↔
    ∀ line ∈ lines, (fromUtf8 (stripCr line)).isSome = true
  | [] => ⟨fun _ _ h => (nomatch h), fun _ => rfl⟩
  | line :: lines => by
    rw [List.forall_mem_cons, ← takeFrame_ok, ← takeFrames_ok, takeFrames]
    obtain ⟨frames, result⟩ := takeFrame line
    cases result with
    | error e => exact ⟨(fun h => nomatch h), fun h => (nomatch h.1)⟩
    | ok u => exact ⟨fun h => ⟨rfl, h⟩, fun h => h.2⟩

/-! ## The lines alone -/

/-- **What the lines of a stream and its rest come to**, each within the limit by itself. -/
def canon (last : Bytes) : List Bytes → Sent
  | []            => if maxLocalFrameBytes < last.length then ([], .error localLimit) else finalFrame last
  | line :: lines =>
    if maxLocalFrameBytes < line.length + 1 then ([], .error localLimit) else (takeFrame line).follow (canon last lines)

theorem canon_append {last : Bytes} {more : List Bytes} : ∀ {lines : List Bytes},
    (∀ line ∈ lines, line.length + 1 ≤ maxLocalFrameBytes) →
      canon last (lines ++ more) = (takeFrames lines).follow (canon last more)
  | [], _ => rfl
  | line :: lines, h => by
    obtain ⟨hline, hlines⟩ := List.forall_mem_cons.mp h
    rw [List.cons_append, canon, if_neg (Nat.not_lt.mpr hline), canon_append hlines, takeFrames, Sent.follow_assoc]

/-- Whatever stands behind a line within the limit, up to a read, is within it too. -/
def Safe (k : Nat) (stream : Bytes) : Prop :=
  ∀ pre line post, Lines.full lineFeed stream = pre ++ line :: post → (∀ l ∈ pre, Fine l) →
    line.length + 1 ≤ maxLocalFrameBytes →
      line.length + min k (1 + Lines.size post + (Lines.rest lineFeed stream).length) ≤ maxLocalFrameBytes

theorem safe_one (stream : Bytes) : Safe 1 stream := by
  intro pre line post _ _ hline
  omega

/-- Reads of at most `k` bytes. -/
def Split (k : Nat) (stream : Bytes) (reads : List Bytes) : Prop :=
  reads.flatten = stream ∧ ∀ read ∈ reads, 1 ≤ read.length ∧ read.length ≤ k

/-- **Where reads are safe, reading is what the lines come to.** -/
theorem readFrom_eq_canon {k : Nat} : ∀ {reads : List Bytes} {pending : Bytes}, lineFeed ∉ pending →
    pending.length ≤ maxLocalFrameBytes → (∀ read ∈ reads, 1 ≤ read.length ∧ read.length ≤ k) →
      Safe k (pending ++ reads.flatten) →
        readFrom pending (reads.map .ok) =
          canon (Lines.rest lineFeed (pending ++ reads.flatten)) (Lines.full lineFeed (pending ++ reads.flatten))
  | [], pending, hout, hlimit, _, _ => by
    rw [List.flatten_nil, List.append_nil, (Lines.full_of_not_mem hout).1, (Lines.full_of_not_mem hout).2, canon,
      if_neg (Nat.not_lt.mpr hlimit)]
    rfl
  | [] :: _, _, _, _, hreads, _ => by
    have := (hreads [] List.mem_cons_self).1
    exact absurd this (by simp)
  | (b :: bs) :: reads, pending, hout, hlimit, hreads, hsafe => by
    obtain ⟨⟨-, hk⟩, hrest⟩ := List.forall_mem_cons.mp hreads
    rw [List.map_cons, readFrom]
    rw [List.flatten_cons, ← List.append_assoc] at hsafe ⊢
    obtain ⟨hfull, hlast⟩ := Lines.full_append lineFeed (pending ++ b :: bs) reads.flatten
    have hlength := Lines.length_eq lineFeed (pending ++ b :: bs ++ reads.flatten)
    split
    · rename_i hover
      -- the first line is not within the limit itself
      cases hlines : Lines.full lineFeed (pending ++ b :: bs ++ reads.flatten) with
      | nil =>
        rw [hlines, Lines.size_nil, Nat.zero_add] at hlength
        rw [canon, if_pos (by rw [← hlength, List.length_append]; omega)]
      | cons line post =>
        rw [canon, if_pos]
        by_contra hline
        have hbound := hsafe [] line post hlines (by simp) (Nat.le_of_not_lt hline)
        rw [List.append_assoc] at hlines
        have hfront := Lines.length_le_of_prefix hout hlines
        rw [← List.append_assoc] at hlines
        rw [hlines, Lines.size_cons] at hlength
        simp only [List.length_append] at hover hlength hk
        omega
    · rename_i hwithin
      have hpending := Lines.length_eq lineFeed (pending ++ b :: bs)
      have hlines : ∀ line ∈ Lines.full lineFeed (pending ++ b :: bs), line.length + 1 ≤ maxLocalFrameBytes := by
        intro line hline
        have hsize := Lines.length_le_size hline
        omega
      rw [hfull, hlast, canon_append hlines]
      cases htaken : (takeFrames (Lines.full lineFeed (pending ++ b :: bs))).2 with
      | error e => simp only [Sent.follow, htaken]
      | ok u =>
        refine congrArg _ (readFrom_eq_canon (Lines.not_mem_rest lineFeed _) (by omega) hrest ?_)
        intro pre line post heq hpre hline
        rw [← hlast]
        refine hsafe (Lines.full lineFeed (pending ++ b :: bs) ++ pre) line post ?_ ?_ hline
        · rw [hfull, heq, List.append_assoc]
        · intro l hl
          rcases List.mem_append.mp hl with hl | hl
          · exact ⟨hlines l hl, takeFrames_ok.mp htaken l hl⟩
          · exact hpre l hl

/-! ## What the lines come to -/

/-- A stream is rejected at its limit only for a line, or a rest, that is beyond it. -/
theorem canon_limit {last : Bytes} : ∀ {lines : List Bytes}, (canon last lines).2 = .error localLimit →
    maxLocalFrameBytes < last.length ∨
      ∃ pre line post, lines = pre ++ line :: post ∧ (∀ l ∈ pre, Fine l) ∧ maxLocalFrameBytes < line.length + 1
  | [], h => by
    unfold canon at h
    split at h
    · exact .inl ‹_›
    · unfold finalFrame at h
      split at h
      · cases h
      · split at h
        · exact absurd (Except.error.inj h) (by decide)
        · cases h
  | line :: lines, h => by
    unfold canon at h
    split at h
    · rename_i hover
      exact .inr ⟨[], line, lines, rfl, (by simp), hover⟩
    · rename_i hwithin
      cases htaken : (takeFrame line).2 with
      | error e =>
        simp only [Sent.follow, htaken] at h
        unfold takeFrame at htaken
        split at htaken
        · cases htaken
        · split at htaken
          · exact absurd ((Except.error.inj htaken).trans (Except.error.inj h)) (by decide)
          · cases htaken
      | ok u =>
        simp only [Sent.follow, htaken] at h
        rcases canon_limit h with hlast | ⟨pre, line', post, rfl, hpre, hover⟩
        · exact .inl hlast
        · refine .inr ⟨line :: pre, line', post, rfl, ?_, hover⟩
          exact List.forall_mem_cons.mpr ⟨⟨Nat.le_of_not_lt hwithin, takeFrame_ok.mp htaken⟩, hpre⟩

/-- A line that is beyond the limit ends the stream. -/
theorem canon_over {last line : Bytes} {pre post : List Bytes} (hpre : ∀ l ∈ pre, Fine l)
    (hover : maxLocalFrameBytes < line.length + 1) :
    canon last (pre ++ line :: post) = ((takeFrames pre).1, .error localLimit) := by
  have hok : (takeFrames pre).2 = .ok () := takeFrames_ok.mpr fun l hl => (hpre l hl).2
  rw [canon_append fun l hl => (hpre l hl).1, canon, if_pos hover]
  simp only [Sent.follow, hok, List.append_nil]

/-! ## One byte at a time -/

def ones (bytes : Bytes) : List Bytes := bytes.map fun byte => [byte]

@[simp] theorem ones_flatten : ∀ bytes : Bytes, (ones bytes).flatten = bytes
  | [] => rfl
  | byte :: bytes => congrArg (byte :: ·) (ones_flatten bytes)

theorem ones_length {bytes read : Bytes} (h : read ∈ ones bytes) : read.length = 1 := by
  obtain ⟨byte, -, rfl⟩ := List.mem_map.mp h
  rfl

/-- Read so, nothing but the line itself counts. -/
theorem readFrom_ones (more : List (Except ProviderError Bytes)) : ∀ {bytes pending : Bytes}, lineFeed ∉ pending →
    (∀ line ∈ Lines.full lineFeed (pending ++ bytes), line.length + 1 ≤ maxLocalFrameBytes) →
      (Lines.rest lineFeed (pending ++ bytes)).length ≤ maxLocalFrameBytes →
        readFrom pending ((ones bytes).map .ok ++ more) =
          (takeFrames (Lines.full lineFeed (pending ++ bytes))).follow
            (readFrom (Lines.rest lineFeed (pending ++ bytes)) more)
  | [], pending, hout, _, _ => by
    rw [List.append_nil, (Lines.full_of_not_mem hout).1, (Lines.full_of_not_mem hout).2]
    rfl
  | byte :: bytes, pending, hout, hlines, hlast => by
    have hread : pending ++ byte :: bytes = pending ++ [byte] ++ bytes := by simp
    obtain ⟨hfull, hrest⟩ := Lines.full_append lineFeed (pending ++ [byte]) bytes
    have hlimit : (pending ++ [byte]).length ≤ maxLocalFrameBytes := by
      by_cases hbyte : byte = lineFeed
      · subst hbyte
        have hfirst := hlines pending (by rw [(Lines.full_line hout).1]; exact List.mem_cons_self)
        simpa using hfirst
      · have hstill : lineFeed ∉ pending ++ [byte] := by
          simp only [List.mem_append, List.mem_singleton, not_or]
          exact ⟨hout, Ne.symm hbyte⟩
        cases hcases : Lines.full lineFeed (pending ++ byte :: bytes) with
        | nil =>
          have hlength := Lines.length_eq lineFeed (pending ++ byte :: bytes)
          rw [hcases, Lines.size_nil, Nat.zero_add] at hlength
          rw [← hlength] at hlast
          simp at hlast ⊢
          omega
        | cons line post =>
          have hline := hlines line (by rw [hcases]; exact List.mem_cons_self)
          rw [hread] at hcases
          have hfront := Lines.length_le_of_prefix hstill hcases
          omega
    rw [hread] at hlines hlast ⊢
    rw [hfull] at hlines ⊢
    rw [hrest] at hlast ⊢
    have hlater := readFrom_ones more (Lines.not_mem_rest lineFeed (pending ++ [byte]))
      (fun line hline => hlines line (List.mem_append_right _ hline)) hlast
    simp only [ones, List.map_cons, List.cons_append, readFrom, if_neg (Nat.not_lt.mpr hlimit)]
    rw [takeFrames_append, Sent.follow_assoc]
    exact congrArg _ hlater

/-! ## All the ways to read -/

/-- No two ways to read a stream differ, and a stream of lines within the limit is not rejected for it. -/
def Independent (stream : Bytes) : Prop :=
  (∀ reads reads', Split 8192 stream reads → Split 8192 stream reads' →
    readFrames (reads.map .ok) = readFrames (reads'.map .ok)) ∧
  ((∀ line ∈ stream.splitOn lineFeed, line.length ≤ maxLocalFrameBytes) →
    ∀ reads, Split 8192 stream reads → (readFrames (reads.map .ok)).2 ≠ .error localLimit)

/-- The lines up to the first that is no text: one that is within the limit with its line feed is so with up to 8191 bytes
more behind it, and where no line is beyond the limit none reaches it with its line feed only. -/
def Within (stream : Bytes) : Prop :=
  ∀ pre line post, Lines.full lineFeed stream = pre ++ line :: post → (∀ l ∈ pre, Fine l) →
    (line.length + 1 ≤ maxLocalFrameBytes →
      line.length + 1 + min 8191 (Lines.size post + (Lines.rest lineFeed stream).length) ≤ maxLocalFrameBytes) ∧
    ((∀ l ∈ stream.splitOn lineFeed, l.length ≤ maxLocalFrameBytes) → line.length + 1 ≤ maxLocalFrameBytes)

theorem readFrames_eq_canon {k : Nat} {stream : Bytes} {reads : List Bytes} (hreads : Split k stream reads)
    (hsafe : Safe k stream) :
    readFrames (reads.map .ok) = canon (Lines.rest lineFeed stream) (Lines.full lineFeed stream) := by
  obtain ⟨rfl, hlengths⟩ := hreads
  exact readFrom_eq_canon (List.not_mem_nil) (Nat.zero_le _) hlengths hsafe

theorem split_ones (stream : Bytes) : Split 1 stream (ones stream) :=
  ⟨ones_flatten stream, fun _ h => by rw [ones_length h]; exact ⟨Nat.le_refl _, Nat.le_refl _⟩⟩

theorem Split.mono {k k' : Nat} (h : k ≤ k') {stream : Bytes} {reads : List Bytes} (hreads : Split k stream reads) :
    Split k' stream reads :=
  ⟨hreads.1, fun read hread => ⟨(hreads.2 read hread).1, Nat.le_trans (hreads.2 read hread).2 h⟩⟩

theorem independent_of_within {stream : Bytes} (h : Within stream) : Independent stream := by
  have hsafe : Safe 8192 stream := by
    intro pre line post heq hpre hline
    have hbehind := (h pre line post heq hpre).1 hline
    omega
  refine ⟨fun reads reads' hreads hreads' => ?_, fun hlines reads hreads hlimit => ?_⟩
  · rw [readFrames_eq_canon hreads hsafe, readFrames_eq_canon hreads' hsafe]
  · rw [readFrames_eq_canon hreads hsafe] at hlimit
    rcases canon_limit hlimit with hlast | ⟨pre, line, post, heq, hpre, hover⟩
    · have hrest := hlines (Lines.rest lineFeed stream) (by rw [Lines.splitOn_eq]; simp)
      omega
    · have hline := (h pre line post heq hpre).2 hlines
      omega

/-- A line with its line feed, and as much behind it as one read holds. -/
theorem readFrames_beside {before line after : Bytes} (hrest : Lines.rest lineFeed (before ++ line) = line)
    (hfull : ∀ l ∈ Lines.full lineFeed (before ++ line), Fine l) (hline : line.length + 1 ≤ maxLocalFrameBytes)
    (hover : maxLocalFrameBytes < line.length + 1 + min 8191 after.length) :
    ∃ reads, Split 8192 (before ++ line ++ lineFeed :: after) reads ∧
      readFrames (reads.map .ok) = ((takeFrames (Lines.full lineFeed (before ++ line))).1, .error localLimit) := by
  refine ⟨ones (before ++ line) ++ (lineFeed :: after.take 8191) :: ones (after.drop 8191), ⟨?_, ?_⟩, ?_⟩
  · rw [List.flatten_append, List.flatten_cons, ones_flatten, ones_flatten, List.cons_append, List.take_append_drop]
  · intro read hread
    rcases List.mem_append.mp hread with hread | hread
    · rw [ones_length hread]
      decide
    · rcases List.mem_cons.mp hread with rfl | hread
      · rw [List.length_cons, List.length_take]
        omega
      · rw [ones_length hread]
        decide
  · have hok : (takeFrames (Lines.full lineFeed (before ++ line))).2 = .ok () := takeFrames_ok.mpr fun l hl => (hfull l hl).2
    rw [List.map_append]
    have hread := @readFrom_ones (((lineFeed :: after.take 8191) :: ones (after.drop 8191)).map .ok)
      (before ++ line) [] (List.not_mem_nil) (fun l hl => (hfull l hl).1) (by rw [List.nil_append, hrest]; omega)
    rw [List.nil_append, hrest] at hread
    rw [readFrames, hread, List.map_cons, readFrom, if_pos (by simp; omega)]
    simp only [Sent.follow, hok, List.append_nil]

theorem within_of_independent {stream : Bytes} (h : Independent stream) : Within stream := by
  intro pre line post heq hpre
  have hcanon := readFrames_eq_canon (split_ones stream) (safe_one stream)
  have hones := (split_ones stream).mono (by decide : 1 ≤ 8192)
  refine ⟨fun hline => ?_, fun hlines => ?_⟩
  · by_contra hbehind
    obtain ⟨before, after, rfl, hfull, hrest, hpost, hlast⟩ := Lines.split_at_line heq
    have hafter := Lines.length_eq lineFeed after
    rw [hpost, hlast] at hafter
    rw [← hfull] at hpre
    have hmore : maxLocalFrameBytes < line.length + 1 + min 8191 after.length := by omega
    obtain ⟨reads, hreads, hover⟩ := readFrames_beside hrest hpre hline hmore
    rw [hfull] at hover hpre
    have hboth := hover.symm.trans ((h.1 _ _ hreads hones).trans hcanon)
    rw [heq, canon_append fun l hl => (hpre l hl).1, canon, if_neg (by omega)] at hboth
    -- the line read alone is a frame more, or no text
    have hok : (takeFrames pre).2 = .ok () := takeFrames_ok.mpr fun l hl => (hpre l hl).2
    have hlong : stripCr line ≠ [] := by
      intro hnil
      have hone : line.length ≤ 1 := by
        unfold stripCr at hnil
        split at hnil
        · have hlength := congrArg List.length hnil
          rw [List.length_dropLast] at hlength
          simp at hlength
          omega
        · simp [hnil]
      have hmax : maxLocalFrameBytes = 1048576 := rfl
      omega
    simp only [Sent.follow, hok] at hboth
    unfold takeFrame at hboth
    rw [if_neg hlong] at hboth
    cases htext : fromUtf8 (stripCr line) with
    | none =>
      rw [htext] at hboth
      exact absurd (Except.error.inj (Prod.mk.inj hboth).2) (by decide)
    | some text =>
      rw [htext] at hboth
      have hframes := congrArg List.length (Prod.mk.inj hboth).1
      simp at hframes
  · by_contra hover
    refine h.2 hlines _ hones ?_
    rw [hcanon, heq, canon_over hpre (Nat.lt_of_not_le hover)]

/-- **Framing does not depend on the reads exactly when no line is beyond the limit with what one read may bring behind it.** -/
theorem independent_iff (stream : Bytes) : Independent stream ↔ Within stream :=
  ⟨within_of_independent, independent_of_within⟩

/-- A line of a megabyte with its line feed, and a line behind it. -/
theorem reads_differ : ¬ Independent (List.replicate (maxLocalFrameBytes - 1) 97 ++ lineFeed :: [97, lineFeed]) := by
  intro h
  have hout : lineFeed ∉ List.replicate (maxLocalFrameBytes - 1) (97 : UInt8) := by
    intro hmem
    exact absurd (List.eq_of_mem_replicate hmem) (by decide)
  have hfull : Lines.full lineFeed (List.replicate (maxLocalFrameBytes - 1) 97 ++ lineFeed :: [97, lineFeed]) =
      [List.replicate (maxLocalFrameBytes - 1) 97, [97]] := by
    rw [(Lines.full_line hout).1]
    rfl
  have hbehind := (within_of_independent h [] _ [[97]] hfull (by simp)).1 (by rw [List.length_replicate]; decide)
  rw [List.length_replicate, Lines.size_cons] at hbehind
  have hmax : maxLocalFrameBytes = 1048576 := rfl
  simp at hbehind
  omega

end Transport
end Syllog
