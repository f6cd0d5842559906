import Syllog.Sse
import Syllog.Runs
/-!
# SseStream — events of a stream against the chunks it comes in

What the decoder holds after some chunks is a function of their bytes: the rest of the last line, and the data of the event
that is open (`Reads`).  A chunk that brings no fault takes this to the longer stream and returns the events it has ended
(`push_reads`).  So decoding does not depend on the chunks (`decodeResponse_of_chunks`), and what a fault loses is what its own
chunk had ended (`keepsEvents_iff`).
-/
namespace Syllog
namespace Transport

/-! ## Data lines -/

theorem stripPrefix_eq_some {start text value : String} : stripPrefix start text = some value ↔ text = start ++ value := by
  unfold stripPrefix
  rw [← String.toList_inj, String.toList_append]
  split
  · rename_i h
    obtain ⟨rest, hrest⟩ := List.isPrefixOf_iff_prefix.mp h
    rw [← hrest, List.drop_left, List.append_right_inj, Option.some.injEq]
    exact ⟨fun h => by rw [← h, String.toList_ofList], fun h => by rw [h, String.ofList_toList]⟩
  · rename_i h
    refine ⟨(fun h => nomatch h), fun heq => absurd ?_ h⟩
    rw [heq, List.isPrefixOf_iff_prefix]
    exact List.prefix_append _ _

/-- A value is shorter than its line. -/
theorem size_dataValue {line value : String} (h : dataValue line = some value) :
    value.utf8ByteSize + 1 ≤ line.utf8ByteSize := by
  obtain ⟨after, hafter, rfl⟩ := Option.map_eq_some_iff.mp h
  have hline := congrArg String.utf8ByteSize (stripPrefix_eq_some.mp hafter)
  rw [String.utf8ByteSize_append] at hline
  have hstart : "data:".utf8ByteSize = 5 := by decide
  cases hspace : stripPrefix " " after with
  | none =>
    rw [Option.getD_none]
    omega
  | some value =>
    have hvalue := congrArg String.utf8ByteSize (stripPrefix_eq_some.mp hspace)
    rw [String.utf8ByteSize_append] at hvalue
    rw [Option.getD_some]
    omega

theorem size_trimEndCr (text : String) : (trimEndCr text).utf8ByteSize ≤ text.utf8ByteSize := by
  have hsplit : text = trimEndCr text ++ String.ofList (text.toList.rtakeWhile (· = '\r')) := by
    rw [trimEndCr, ← String.ofList_append, List.rdropWhile_append_rtakeWhile, String.ofList_toList]
  have hsize := congrArg String.utf8ByteSize hsplit
  rw [String.utf8ByteSize_append] at hsize
  omega

@[simp] theorem dataValue_empty : dataValue "" = none := by decide

/-! ## Events of lines -/

/-- The data of the event that is open after these lines. -/
def openData (lines : List String) : List String := (Lines.rest "" lines).filterMap dataValue

theorem endedEvents_eq (lines : List String) : endedEvents lines = (Lines.full "" lines).filterMap eventOf := rfl

theorem eventOf_eq (group : List String) :
    eventOf group = if group.filterMap dataValue = [] then none else some (joinData (group.filterMap dataValue)) := rfl

theorem eventsOf_eq (lines : List String) :
    eventsOf lines = endedEvents lines ++ (if openData lines = [] then none else some (joinData (openData lines))).toList := by
  unfold eventsOf openData
  rw [Lines.splitOn_eq, List.filterMap_append, ← endedEvents_eq, ← eventOf_eq]
  cases hevent : eventOf (Lines.rest "" lines) <;> simp [hevent]

/-- A blank line ends the open event. -/
theorem events_blank (lines : List String) :
    endedEvents (lines ++ [""]) = eventsOf lines ∧ openData (lines ++ [""]) = [] := by
  have hblank : Lines.full "" (Lines.rest "" lines ++ [""]) = [Lines.rest "" lines] ∧
      Lines.rest "" (Lines.rest "" lines ++ [""]) = [] := by
    have h := Lines.full_line (l := []) (Lines.not_mem_rest "" lines)
    rwa [Lines.full_nil, Lines.rest_nil] at h
  constructor
  · rw [endedEvents_eq, (Lines.full_append "" lines [""]).1, hblank.1, eventsOf, Lines.splitOn_eq]
  · rw [openData, (Lines.full_append "" lines [""]).2, hblank.2]
    rfl

/-- Any other line adds its value to it. -/
theorem events_line {line : String} (h : line ≠ "") (lines : List String) :
    endedEvents (lines ++ [line]) = endedEvents lines ∧
      openData (lines ++ [line]) = openData lines ++ (dataValue line).toList := by
  have hopen : "" ∉ Lines.rest "" lines ++ [line] := by
    simp only [List.mem_append, List.mem_singleton, not_or]
    exact ⟨Lines.not_mem_rest "" lines, h.symm⟩
  obtain ⟨hfull, hrest⟩ := Lines.full_of_not_mem hopen
  constructor
  · rw [endedEvents_eq, endedEvents_eq, (Lines.full_append "" lines [line]).1, hfull, List.append_nil]
  · rw [openData, openData, (Lines.full_append "" lines [line]).2, hrest, List.filterMap_append]
    cases hvalue : dataValue line <;> simp [hvalue]

/-- A final line adds its value, and then the open event is the last. -/
theorem eventsOf_final (lines : List String) (final : String) :
    eventsOf (lines ++ [final]) = endedEvents lines ++
      (if openData lines ++ (dataValue final).toList = [] then none
        else some (joinData (openData lines ++ (dataValue final).toList))).toList := by
  by_cases h : final = ""
  · subst h
    obtain ⟨hended, hopen⟩ := events_blank lines
    rw [eventsOf_eq, hended, hopen, eventsOf_eq, dataValue_empty]
    simp
  · obtain ⟨hended, hopen⟩ := events_line h lines
    rw [eventsOf_eq, hended, hopen]

/-- What was ended stays ended. -/
theorem endedEvents_append (lines more : List String) : ∃ later, endedEvents (lines ++ more) = endedEvents lines ++ later := by
  rw [endedEvents_eq, (Lines.full_append "" lines more).1, List.filterMap_append]
  exact ⟨_, rfl⟩

/-! ## Frames of events -/

theorem dataFrames_append (events later : List String) :
    dataFrames (events ++ later) = dataFrames events ++ if done ∈ events then [] else dataFrames later := by
  unfold dataFrames
  induction events with
  | nil => simp
  | cons event events ih =>
    by_cases h : event = done
    · simp [h]
    · rw [List.cons_append, List.takeWhile_cons_of_pos (by simpa using h), List.takeWhile_cons_of_pos (by simpa using h),
        List.map_cons, ih, List.map_cons]
      simp [Ne.symm h]

theorem sendEvents_eq (events : List String) : sendEvents events = (dataFrames events, decide (done ∉ events)) := by
  unfold dataFrames
  induction events with
  | nil => rfl
  | cons event events ih =>
    unfold sendEvents
    by_cases h : event = done
    · simp [h]
    · simp [h, Ne.symm h, ih]

/-! ## Taking lines -/

namespace SseDecoder

/-- The text of a line that is taken. -/
def textsOf (lines : List Bytes) : List String := lines.filterMap fun line => fromUtf8 (stripCr line)

/-- **The data of a decoder is that of the open event.** -/
def Holds (d : SseDecoder) (texts : List String) : Prop := d.data = openData texts

variable {d d' : SseDecoder} {texts : List String}

theorem pushData_ok {value : String} (h : d.pushData value = .ok d') :
    d'.pending = d.pending ∧ d'.data = d.data ++ [value] := by
  unfold pushData at h
  dsimp only at h
  split_ifs at h <;> cases h <;> exact ⟨rfl, rfl⟩

/-- **One line taken**: its text goes to the open event, or ends it. -/
theorem takeLine_ok {line : Bytes} {event : Option String} (h : d.takeLine line = .ok (d', event)) (hd : d.Holds texts) :
    d'.pending = d.pending ∧ ∃ text, fromUtf8 (stripCr line) = some text ∧ d'.Holds (texts ++ [text]) ∧
      endedEvents (texts ++ [text]) = endedEvents texts ++ event.toList := by
  unfold takeLine at h
  split at h
  · cases h
  · rename_i text htext
    split at h
    · rename_i hblank
      subst hblank
      obtain ⟨hended, hopen⟩ := events_blank texts
      rw [eventsOf_eq, ← hd] at hended
      split at h
      · rename_i hnone
        cases h
        rw [if_pos hnone] at hended
        exact ⟨rfl, "", htext, by rw [Holds, hopen, hnone], hended⟩
      · rename_i hsome
        cases h
        rw [if_neg hsome] at hended
        exact ⟨rfl, "", htext, by rw [Holds, hopen], hended⟩
    · rename_i hline
      obtain ⟨hended, hopen⟩ := events_line hline texts
      split at h
      · rename_i hvalue
        cases h
        rw [hvalue, Option.toList_none, List.append_nil] at hopen
        exact ⟨rfl, text, htext, by rw [Holds, hopen]; exact hd, by simpa using hended⟩
      · rename_i value hvalue
        cases hpush : d.pushData value with
        | error e =>
          rw [hpush] at h
          cases h
        | ok d₁ =>
          rw [hpush] at h
          cases h
          obtain ⟨hpending, hdata⟩ := pushData_ok hpush
          rw [hvalue, Option.toList_some] at hopen
          refine ⟨hpending, text, htext, ?_, by simpa using hended⟩
          rw [Holds, hopen, hdata, hd]

theorem takeLines_ok : ∀ {lines : List Bytes} {d d' : SseDecoder} {texts events : List String},
    d.takeLines lines = .ok (d', events) → d.Holds texts →
      d'.pending = d.pending ∧ d'.Holds (texts ++ textsOf lines) ∧
        endedEvents (texts ++ textsOf lines) = endedEvents texts ++ events
  | [], d, d', texts, events, h, hd => by
    cases h
    rw [textsOf, List.filterMap_nil, List.append_nil, List.append_nil]
    exact ⟨rfl, hd, rfl⟩
  | line :: lines, d, d', texts, events, h, hd => by
    obtain ⟨⟨d₁, event⟩, hline, h⟩ := Runs.bind_eq_ok h
    obtain ⟨⟨d₂, later⟩, hlines, h⟩ := Runs.bind_eq_ok h
    cases h
    obtain ⟨hpending, text, htext, hd₁, hended⟩ := takeLine_ok hline hd
    obtain ⟨hpending', hd₂, hended'⟩ := takeLines_ok hlines hd₁
    have htexts : texts ++ textsOf (line :: lines) = texts ++ [text] ++ textsOf lines := by
      unfold textsOf
      rw [List.filterMap_cons, htext, List.append_assoc]
      rfl
    rw [htexts]
    exact ⟨hpending'.trans hpending, hd₂, by rw [hended', hended, List.append_assoc]⟩

theorem takeLines_append {more : List Bytes} : ∀ {lines : List Bytes} {d d' : SseDecoder} {events : List String},
    d.takeLines lines = .ok (d', events) →
      d.takeLines (lines ++ more) = (d'.takeLines more).map fun r => (r.1, events ++ r.2)
  | [], d, d', events, h => by
    cases h
    cases hmore : d.takeLines more with
    | error e => exact hmore
    | ok r => exact hmore
  | line :: lines, d, d', events, h => by
    obtain ⟨⟨d₁, event⟩, hline, h⟩ := Runs.bind_eq_ok h
    obtain ⟨⟨d₂, later⟩, hlines, h⟩ := Runs.bind_eq_ok h
    cases h
    rw [List.cons_append, takeLines, hline]
    change (d₁.takeLines (lines ++ more) >>= _) = _
    rw [takeLines_append hlines]
    cases hmore : d'.takeLines more with
    | error e => rfl
    | ok r => simp [Except.map, bind, Except.bind, pure, Except.pure]

/-- Taking lines does not look at what is pending. -/
theorem takeLine_pending (d : SseDecoder) (pending line : Bytes) :
    { d with pending := pending }.takeLine line = (d.takeLine line).map fun r => ({ r.1 with pending := pending }, r.2) := by
  unfold takeLine pushData
  dsimp only
  split
  · rfl
  · split
    · split <;> rfl
    · split
      · rfl
      · split_ifs <;> rfl

theorem takeLines_pending (pending : Bytes) : ∀ (lines : List Bytes) (d : SseDecoder),
    { d with pending := pending }.takeLines lines =
      (d.takeLines lines).map fun r => ({ r.1 with pending := pending }, r.2)
  | [], _ => rfl
  | line :: lines, d => by
    rw [takeLines, takeLines, takeLine_pending]
    cases d.takeLine line with
    | error e => rfl
    | ok r =>
      change ({ r.1 with pending := pending }.takeLines lines >>= _) = Except.map _ (r.1.takeLines lines >>= _)
      rw [takeLines_pending pending lines r.1]
      cases r.1.takeLines lines <;> rfl

/-! ## What the decoder has read -/

/-- **The decoder behind these bytes**: the rest of their last line is pending, the lines are taken, and these events were
ended. -/
structure Reads (before : Bytes) (d : SseDecoder) (events : List String) : Prop where
  pending : d.pending = Lines.rest lineFeed before
  lines : new.takeLines (Lines.full lineFeed before) = .ok ({ d with pending := [] }, events)

theorem Reads.start : Reads [] new [] where
  pending := by rw [Lines.rest_nil]; rfl
  lines := by rw [Lines.full_nil]; rfl

theorem Reads.holds {before : Bytes} {d : SseDecoder} {events : List String} (h : Reads before d events) :
    d.Holds (textsOf (Lines.full lineFeed before)) ∧ endedEvents (textsOf (Lines.full lineFeed before)) = events := by
  obtain ⟨-, hholds, hended⟩ := @takeLines_ok _ _ _ [] _ h.lines rfl
  rw [List.nil_append] at hholds hended
  exact ⟨hholds, hended⟩

/-- **A chunk that is pushed takes the decoder to the longer stream.** -/
theorem Reads.push {before chunk : Bytes} {d d' : SseDecoder} {events later : List String} (h : Reads before d events)
    (hpush : d.push chunk = .ok (d', later)) : Reads (before ++ chunk) d' (events ++ later) := by
  unfold SseDecoder.push at hpush
  dsimp only at hpush
  split at hpush
  · cases hpush
  · rw [h.pending, takeLines_pending] at hpush
    obtain ⟨hfull, hrest⟩ := Lines.full_append lineFeed before chunk
    cases htaken : d.takeLines (Lines.full lineFeed (Lines.rest lineFeed before ++ chunk)) with
    | error e =>
      rw [htaken] at hpush
      cases hpush
    | ok r =>
      rw [htaken] at hpush
      cases hpush
      refine ⟨hrest.symm, ?_⟩
      rw [hfull, takeLines_append h.lines, takeLines_pending, htaken]
      rfl

/-! ## Faults -/

/-- The lines that are taken before the first that cannot be. -/
def soundLines (d : SseDecoder) : List Bytes → List Bytes
  | []            => []
  | line :: lines => match d.takeLine line with
    | .error _ => []
    | .ok r    => line :: r.1.soundLines lines

theorem soundLines_eq_self : ∀ {lines : List Bytes} {d : SseDecoder},
    d.soundLines lines = lines ↔ ∃ r, d.takeLines lines = .ok r
  | [], d => ⟨fun _ => ⟨_, rfl⟩, fun _ => rfl⟩
  | line :: lines, d => by
    rw [soundLines, SseDecoder.takeLines]
    cases d.takeLine line with
    | error e => exact ⟨(fun h => nomatch h), fun ⟨_, h⟩ => nomatch h⟩
    | ok r =>
      change line :: r.1.soundLines lines = line :: lines ↔ ∃ r', (r.1.takeLines lines >>= _) = .ok r'
      rw [List.cons_inj_right, soundLines_eq_self]
      constructor
      · rintro ⟨r', h⟩
        rw [h]
        exact ⟨_, rfl⟩
      · rintro ⟨r', h⟩
        obtain ⟨r₁, h₁, -⟩ := Runs.bind_eq_ok h
        exact ⟨r₁, h₁⟩

theorem soundLines_append {more : List Bytes} : ∀ {lines : List Bytes} {d d' : SseDecoder} {events : List String},
    d.takeLines lines = .ok (d', events) → d.soundLines (lines ++ more) = lines ++ d'.soundLines more
  | [], d, d', events, h => by
    cases h
    rfl
  | line :: lines, d, d', events, h => by
    obtain ⟨⟨d₁, event⟩, hline, h⟩ := Runs.bind_eq_ok h
    obtain ⟨⟨d₂, later⟩, hlines, h⟩ := Runs.bind_eq_ok h
    cases h
    rw [List.cons_append, soundLines, hline]
    change line :: d₁.soundLines (lines ++ more) = _
    rw [soundLines_append hlines]
    rfl

/-- **Where a chunk is at fault** behind the bytes before it: the lines in front of the offending bytes, which are the first
line that cannot be taken, or what goes beyond the limit of the buffer. -/
def faultIn (before chunk : Bytes) : Option (List Bytes) :=
  let buffer := Lines.rest lineFeed before ++ chunk
  let lines := new.soundLines (Lines.full lineFeed before ++ Lines.full lineFeed (buffer.take maxSseEventBytes))
  if maxSseEventBytes < buffer.length ∨ lines ≠ Lines.full lineFeed (before ++ chunk) then some lines else none

/-- The final line, which no line feed ends, is at fault. -/
def FinalFault (before : Bytes) : Prop :=
  match new.takeLines (Lines.full lineFeed before) with
  | .ok (d, _) => ∃ e, { d with pending := Lines.rest lineFeed before }.pushFinal = .error e
  | .error _   => False

/-- **Where a body is at fault**: the bytes before the chunk that brings the fault, and the lines in front of it. -/
def FaultOf (before : Bytes) : List (Except ProviderError Bytes) → Bytes → List Bytes → Prop
  | [], b, lines                => b = before ∧ lines = Lines.full lineFeed before ∧ FinalFault before
  | .error _ :: _, _, _         => False
  | .ok chunk :: body, b, lines => match faultIn before chunk with
    | some sound => b = before ∧ lines = sound
    | none       => FaultOf (before ++ chunk) body b lines

variable {before chunk : Bytes} {events : List String}

/-- A chunk fails exactly when it is at fault. -/
theorem Reads.push_iff (h : Reads before d events) : (∃ r, d.push chunk = .ok r) ↔ faultIn before chunk = none := by
  obtain ⟨hfull, -⟩ := Lines.full_append lineFeed before chunk
  unfold SseDecoder.push faultIn
  dsimp only
  rw [h.pending]
  split
  · rename_i hlimit
    rw [if_pos (Or.inl hlimit)]
    exact ⟨(fun ⟨_, h⟩ => nomatch h), (fun h => nomatch h)⟩
  · rename_i hlimit
    rw [List.take_of_length_le (Nat.le_of_not_lt hlimit), ← hfull, takeLines_pending]
    have hwhole : (∃ r, new.takeLines (Lines.full lineFeed (before ++ chunk)) = .ok r) ↔
        ∃ r, d.takeLines (Lines.full lineFeed (Lines.rest lineFeed before ++ chunk)) = .ok r := by
      rw [hfull, takeLines_append h.lines, takeLines_pending]
      cases d.takeLines (Lines.full lineFeed (Lines.rest lineFeed before ++ chunk)) with
      | error e => exact ⟨(fun ⟨_, h⟩ => nomatch h), (fun ⟨_, h⟩ => nomatch h)⟩
      | ok r => exact ⟨fun _ => ⟨_, rfl⟩, fun _ => ⟨_, rfl⟩⟩
    rw [← soundLines_eq_self] at hwhole
    by_cases hsound : new.soundLines (Lines.full lineFeed (before ++ chunk)) = Lines.full lineFeed (before ++ chunk)
    · obtain ⟨r, hr⟩ := hwhole.mp hsound
      rw [if_neg (not_or.mpr ⟨hlimit, not_not.mpr hsound⟩), hr]
      exact ⟨fun _ => rfl, fun _ => ⟨_, rfl⟩⟩
    · rw [if_pos (Or.inr hsound)]
      refine ⟨fun ⟨r, hr⟩ => absurd (hwhole.mpr ?_) hsound, (fun h => nomatch h)⟩
      cases hlines : d.takeLines (Lines.full lineFeed (Lines.rest lineFeed before ++ chunk)) with
      | error e =>
        rw [hlines] at hr
        cases hr
      | ok r => exact ⟨r, rfl⟩

theorem Reads.finalFault_iff (h : Reads before d events) : FinalFault before ↔ ∃ e, d.finish = .error e := by
  unfold FinalFault finish
  rw [h.lines]
  dsimp only
  rw [← h.pending]
  change (∃ e, d.pushFinal = .error e) ↔ _
  cases d.pushFinal with
  | error e => exact ⟨fun _ => ⟨_, rfl⟩, fun _ => ⟨_, rfl⟩⟩
  | ok d => exact ⟨(fun ⟨_, h⟩ => nomatch h), (fun ⟨_, h⟩ => nomatch h)⟩

/-! ## The body -/

/-- The text of the final line. -/
def finalText (stream : Bytes) : List String := (fromUtf8 (Lines.rest lineFeed stream)).toList.map trimEndCr

/-- **The end of the stream adds its final line**, and returns the event that is open then. -/
theorem Reads.finish_ok {event : Option String} (h : Reads before d events) (hfinish : d.finish = .ok event) :
    eventsOf (textsOf (Lines.full lineFeed before) ++ finalText before) = events ++ event.toList := by
  obtain ⟨hholds, hended⟩ := h.holds
  have hnil : fromUtf8 [] = some "" := fromUtf8_ofList []
  unfold finish pushFinal at hfinish
  unfold finalText
  rw [← h.pending]
  split at hfinish
  · rename_i hpending
    cases hfinish
    have htrim : trimEndCr "" = "" := by decide
    rw [hpending, hnil, Option.toList_some, List.map_singleton, htrim, eventsOf_final, hended, ← hholds, dataValue_empty]
    simp
  · split at hfinish
    · cases hfinish
    · rename_i text htext
      rw [htext, Option.toList_some, List.map_singleton, eventsOf_final, hended, ← hholds]
      split at hfinish
      · rename_i hvalue
        cases hfinish
        rw [hvalue]
        simp
      · rename_i value hvalue
        cases hpush : d.pushData value with
        | error e =>
          rw [hpush] at hfinish
          cases hfinish
        | ok d' =>
          rw [hpush] at hfinish
          cases hfinish
          have hdata := (pushData_ok hpush).2
          simp [hvalue, hdata]

end SseDecoder

open SseDecoder

variable {d : SseDecoder} {before : Bytes} {events : List String}

/-- One chunk that is pushed: its events are sent, and what follows unless one was `[DONE]`. -/
theorem decodeFrom_push {chunk : Bytes} {d' : SseDecoder} {later : List String} (h : d.push chunk = .ok (d', later))
    (body : List (Except ProviderError Bytes)) :
    decodeFrom d (.ok chunk :: body) = dataFrames later ++ if done ∈ later then [] else decodeFrom d' body := by
  rw [decodeFrom, h]
  dsimp only
  rw [sendEvents_eq]
  by_cases hdone : done ∈ later <;> simp [hdone]

/-- **A fault**: what the chunks before had ended is sent, and the error behind it unless a `[DONE]` came first. -/
theorem decodeFrom_fault : ∀ {body : List (Except ProviderError Bytes)} {before b : Bytes} {d : SseDecoder}
    {events : List String} {lines : List Bytes}, Reads before d events → FaultOf before body b lines →
      ∃ later e, endedEvents (textsOf (Lines.full lineFeed b)) = events ++ later ∧
        decodeFrom d body = dataFrames later ++ if done ∈ later then [] else [.error e]
  | [], before, b, d, events, lines, h, hfault => by
    obtain ⟨rfl, -, hfinal⟩ := hfault
    obtain ⟨e, he⟩ := h.finalFault_iff.mp hfinal
    refine ⟨[], e, by rw [h.holds.2, List.append_nil], ?_⟩
    rw [decodeFrom, he]
    rfl
  | .error _ :: _, _, _, _, _, _, _, hfault => hfault.elim
  | .ok chunk :: body, before, b, d, events, lines, h, hfault => by
    unfold FaultOf at hfault
    cases hin : faultIn before chunk with
    | some sound =>
      rw [hin] at hfault
      obtain ⟨rfl, -⟩ := hfault
      cases hpush : d.push chunk with
      | ok r => exact absurd (h.push_iff.mp ⟨r, hpush⟩) (by rw [hin]; exact fun h => nomatch h)
      | error e =>
        refine ⟨[], e, by rw [h.holds.2, List.append_nil], ?_⟩
        rw [decodeFrom, hpush]
        rfl
    | none =>
      rw [hin] at hfault
      obtain ⟨⟨d', later⟩, hpush⟩ := h.push_iff.mpr hin
      obtain ⟨later', e, hended, hframes⟩ := decodeFrom_fault (h.push hpush) hfault
      refine ⟨later ++ later', e, by rw [hended, List.append_assoc], ?_⟩
      rw [decodeFrom_push hpush, hframes, dataFrames_append]
      by_cases hdone : done ∈ later <;> by_cases hdone' : done ∈ later' <;> simp [hdone, hdone']

/-- **No fault**: every event is sent, up to a `[DONE]`. -/
theorem decodeFrom_sound : ∀ {chunks : List Bytes} {before : Bytes} {d : SseDecoder} {events : List String},
    Reads before d events → (∀ b lines, ¬ FaultOf before (chunks.map .ok) b lines) →
      ∃ later, eventsOf (textsOf (Lines.full lineFeed (before ++ chunks.flatten)) ++ finalText (before ++ chunks.flatten)) =
          events ++ later ∧ decodeFrom d (chunks.map .ok) = dataFrames later
  | [], before, d, events, h, hnone => by
    rw [List.flatten_nil, List.append_nil]
    cases hfinish : d.finish with
    | error e => exact absurd ⟨rfl, rfl, h.finalFault_iff.mpr ⟨e, hfinish⟩⟩ (hnone before (Lines.full lineFeed before))
    | ok event =>
      refine ⟨event.toList, h.finish_ok hfinish, ?_⟩
      rw [List.map_nil, decodeFrom, hfinish]
      cases event with
      | none => rfl
      | some event => by_cases hdone : event = done <;> simp [dataFrames, hdone]
  | chunk :: chunks, before, d, events, h, hnone => by
    have hin : faultIn before chunk = none := by
      cases hin : faultIn before chunk with
      | none => rfl
      | some sound =>
        refine absurd ?_ (hnone before sound)
        rw [List.map_cons, FaultOf, hin]
        exact ⟨rfl, rfl⟩
    obtain ⟨⟨d', later⟩, hpush⟩ := h.push_iff.mpr hin
    have hrest : ∀ b lines, ¬ FaultOf (before ++ chunk) (chunks.map .ok) b lines := by
      intro b lines hfault
      refine hnone b lines ?_
      rw [List.map_cons, FaultOf, hin]
      exact hfault
    obtain ⟨later', hevents, hframes⟩ := decodeFrom_sound (h.push hpush) hrest
    rw [List.append_assoc] at hevents
    refine ⟨later ++ later', by rw [List.flatten_cons, hevents, List.append_assoc], ?_⟩
    rw [List.map_cons, decodeFrom_push hpush, hframes, dataFrames_append]

/-! ## Streams within the limit -/

namespace SseDecoder

theorem pushData_total {d : SseDecoder} {value : String}
    (h : d.dataBytes + (value.utf8ByteSize + 1) ≤ maxSseEventBytes) :
    ∃ d', d.pushData value = .ok d' ∧ d'.dataBytes ≤ d.dataBytes + (value.utf8ByteSize + 1) := by
  have hmax : maxSseEventBytes < 2 ^ 64 := by decide
  unfold pushData
  dsimp only
  split_ifs <;> first | omega | exact ⟨_, rfl, by dsimp only; omega⟩

/-- Lines of text are taken as long as they are within the limit together. -/
theorem takeLine_total {d : SseDecoder} {line : Bytes} (hvalid : (fromUtf8 line).isSome = true)
    (h : d.dataBytes + (line.length + 1) ≤ maxSseEventBytes) :
    ∃ d' event, d.takeLine line = .ok (d', event) ∧ d'.dataBytes ≤ d.dataBytes + (line.length + 1) := by
  obtain ⟨text, htext⟩ := Option.isSome_iff_exists.mp hvalid
  have hstripped := fromUtf8_stripCr htext
  have hlength : (stripCr line).length ≤ line.length := by
    unfold stripCr
    split
    · simp
    · rfl
  have hsize := length_of_fromUtf8 hstripped
  unfold takeLine
  rw [hstripped]
  dsimp only
  split
  · split
    · exact ⟨_, _, rfl, by omega⟩
    · exact ⟨_, _, rfl, by simp⟩
  · split
    · exact ⟨_, _, rfl, by omega⟩
    · rename_i value hvalue
      have hless := size_dataValue hvalue
      obtain ⟨d', hpush, hbytes⟩ := @pushData_total d value (by omega)
      rw [hpush]
      exact ⟨d', none, rfl, by omega⟩

theorem takeLines_total : ∀ {lines : List Bytes} {d : SseDecoder}, (∀ line ∈ lines, (fromUtf8 line).isSome = true) →
    d.dataBytes + Lines.size lines ≤ maxSseEventBytes →
      ∃ d' events, d.takeLines lines = .ok (d', events) ∧
        d'.dataBytes ≤ d.dataBytes + Lines.size lines
  | [], d, _, _ => ⟨d, [], rfl, by simp⟩
  | line :: lines, d, hvalid, h => by
    obtain ⟨hline, hlines⟩ := List.forall_mem_cons.mp hvalid
    rw [Lines.size_cons] at h ⊢
    obtain ⟨d₁, event, htake, hbytes⟩ := takeLine_total hline (d := d) (by omega)
    obtain ⟨d₂, events, htakes, hbytes'⟩ := takeLines_total hlines (d := d₁) (by omega)
    refine ⟨d₂, event.toList ++ events, ?_, by omega⟩
    simp only [takeLines, htake, bind, Except.bind, htakes]
    rfl

theorem pushFinal_total {d : SseDecoder} (hvalid : (fromUtf8 d.pending).isSome = true)
    (h : d.dataBytes + d.pending.length ≤ maxSseEventBytes) : ∃ d', d.pushFinal = .ok d' := by
  obtain ⟨text, htext⟩ := Option.isSome_iff_exists.mp hvalid
  have hsize := length_of_fromUtf8 htext
  have htrim := size_trimEndCr text
  unfold pushFinal
  rw [htext]
  dsimp only
  split
  · exact ⟨d, rfl⟩
  · split
    · exact ⟨d, rfl⟩
    · rename_i value hvalue
      have hless := size_dataValue hvalue
      obtain ⟨d', hpush, -⟩ := @pushData_total d value (by omega)
      exact ⟨d', hpush⟩

/-- **A stream of text within the limit is at fault nowhere.** -/
theorem not_faultOf : ∀ {chunks : List Bytes} {before : Bytes},
    (before ++ chunks.flatten).length ≤ maxSseEventBytes →
      (∀ line ∈ (before ++ chunks.flatten).splitOn lineFeed, (fromUtf8 line).isSome = true) →
        ∀ b lines, ¬ FaultOf before (chunks.map .ok) b lines
  | [], before, hsize, hvalid, b, lines => by
    rw [List.flatten_nil, List.append_nil] at hsize hvalid
    rw [Lines.splitOn_eq] at hvalid
    rintro ⟨-, -, hfinal⟩
    have hlength := Lines.length_eq lineFeed before
    obtain ⟨d, events, htakes, hbytes⟩ := takeLines_total (d := new)
      (fun line hline => hvalid line (List.mem_append_left _ hline)) (by simp only [new]; omega)
    unfold FinalFault at hfinal
    rw [htakes] at hfinal
    obtain ⟨e, he⟩ := hfinal
    obtain ⟨d', hpush⟩ := @pushFinal_total { d with pending := Lines.rest lineFeed before }
      (hvalid _ (by simp)) (by simp only [new] at hbytes ⊢; omega)
    rw [hpush] at he
    cases he
  | chunk :: chunks, before, hsize, hvalid, b, lines => by
    rw [List.flatten_cons, ← List.append_assoc] at hsize hvalid
    have hchunk : faultIn before chunk = none := by
      obtain ⟨hfull, -⟩ := Lines.full_append lineFeed before chunk
      obtain ⟨hmore, -⟩ := Lines.full_append lineFeed (before ++ chunk) chunks.flatten
      have hlength := Lines.length_eq lineFeed before
      have hlength' := Lines.length_eq lineFeed (before ++ chunk)
      have hlimit : (Lines.rest lineFeed before ++ chunk).length ≤ maxSseEventBytes := by
        simp only [List.length_append] at hsize ⊢
        omega
      have hsound : new.soundLines (Lines.full lineFeed (before ++ chunk)) = Lines.full lineFeed (before ++ chunk) := by
        obtain ⟨d, events, htakes, -⟩ := @takeLines_total (Lines.full lineFeed (before ++ chunk)) new
          (fun line hline => hvalid line (by
            rw [Lines.splitOn_eq, hmore]
            exact List.mem_append_left _ (List.mem_append_left _ hline)))
          (by simp only [List.length_append, new] at hsize hlength' ⊢; omega)
        exact soundLines_eq_self.mpr ⟨_, htakes⟩
      unfold faultIn
      dsimp only
      rw [List.take_of_length_le hlimit, ← hfull, hsound]
      exact if_neg (not_or.mpr ⟨Nat.not_lt.mpr hlimit, not_not.mpr rfl⟩)
    rw [List.map_cons, FaultOf, hchunk]
    exact not_faultOf hsize hvalid b lines

end SseDecoder

/-- Where every line has a text, the texts of a stream's lines are those that are taken. -/
theorem lineTexts_eq {stream : Bytes} (hvalid : ∀ line ∈ Lines.full lineFeed stream, (fromUtf8 line).isSome = true) :
    lineTexts stream = textsOf (Lines.full lineFeed stream) ++ finalText stream := by
  unfold lineTexts finalText textsOf
  rw [List.map_filterMap]
  refine congrArg (· ++ _) (List.filterMap_congr fun line hline => ?_)
  obtain ⟨text, htext⟩ := Option.isSome_iff_exists.mp (hvalid line hline)
  rw [htext, fromUtf8_stripCr htext]
  rfl

/-- **Decoding does not depend on the chunks.**  A stream of at most one megabyte whose lines are all text is decoded to its
data frames, whatever chunks it comes in. -/
theorem decodeResponse_of_chunks (stream : Bytes) (chunks : List Bytes) (hchunks : chunks.flatten = stream)
    (hsize : stream.length ≤ 1024 * 1024) (hvalid : ∀ line ∈ stream.splitOn lineFeed, (fromUtf8 line).isSome = true) :
    decodeResponse (chunks.map .ok) = dataFrames (eventsOf (lineTexts stream)) := by
  subst hchunks
  have hnone : ∀ b lines, ¬ FaultOf [] (chunks.map .ok) b lines := @not_faultOf chunks [] hsize hvalid
  obtain ⟨later, hevents, hframes⟩ := decodeFrom_sound Reads.start hnone
  have htexts := @lineTexts_eq chunks.flatten fun line hline => hvalid line (by
    rw [Lines.splitOn_eq]
    exact List.mem_append_left _ hline)
  rw [List.nil_append, ← htexts, List.nil_append] at hevents
  rw [decodeResponse, hframes, hevents]

/-- The bytes of a text. -/
def bytesOf (text : String) : Bytes := text.toList.flatMap String.utf8EncodeChar

/-- A CRLF apart, and an event that the stream leaves open. -/
theorem decode_apart : decodeResponse [.ok (bytesOf "da"), .ok (bytesOf "ta: a\r"), .ok (bytesOf "\n\ndata:b")] =
    [.data "a", .data "b"] := by
  have h := decodeResponse_of_chunks (bytesOf "data: a\r\n\ndata:b") [bytesOf "da", bytesOf "ta: a\r", bytesOf "\n\ndata:b"]
    (by decide) (by decide) (by decide +kernel)
  exact h.trans (by decide +kernel)

/-! ## Faults and events -/

/-- Only a fault of the bytes, or a failure to read them, makes an error frame. -/
theorem fault_of_error : ∀ {body : List (Except ProviderError Bytes)} {before : Bytes} {d : SseDecoder}
    {events : List String} {e : ProviderError}, Reads before d events → .error e ∈ decodeFrom d body →
      .error e ∈ body ∨ ∃ b lines, FaultOf before body b lines
  | [], before, d, events, e, h, hmem => by
    rw [decodeFrom] at hmem
    cases hfinish : d.finish with
    | error e' => exact .inr ⟨before, _, rfl, rfl, h.finalFault_iff.mpr ⟨e', hfinish⟩⟩
    | ok event =>
      rw [hfinish] at hmem
      cases event with
      | none => cases hmem
      | some event =>
        dsimp only at hmem
        split at hmem <;> simp at hmem
  | .error e' :: body, _, _, _, e, _, hmem => by
    rw [decodeFrom, List.mem_singleton] at hmem
    cases hmem
    exact .inl List.mem_cons_self
  | .ok chunk :: body, before, d, events, e, h, hmem => by
    cases hin : faultIn before chunk with
    | some sound =>
      refine .inr ⟨before, sound, ?_⟩
      rw [FaultOf, hin]
      exact ⟨rfl, rfl⟩
    | none =>
      obtain ⟨⟨d', later⟩, hpush⟩ := h.push_iff.mpr hin
      rw [decodeFrom_push hpush] at hmem
      have hrest : .error e ∈ decodeFrom d' body := by
        rcases List.mem_append.mp hmem with hmem | hmem
        · obtain ⟨event, -, hevent⟩ := List.mem_map.mp hmem
          cases hevent
        · split at hmem
          · cases hmem
          · exact hmem
      rcases fault_of_error (h.push hpush) hrest with hbody | ⟨b, lines, hfault⟩
      · exact .inl (List.mem_cons_of_mem _ hbody)
      · refine .inr ⟨b, lines, ?_⟩
        rw [FaultOf, hin]
        exact hfault

/-- The lines in front of a fault begin with those the chunks before have ended. -/
theorem full_prefix_of_fault : ∀ {body : List (Except ProviderError Bytes)} {before b : Bytes} {d : SseDecoder}
    {events : List String} {lines : List Bytes}, Reads before d events → FaultOf before body b lines →
      Lines.full lineFeed b <+: lines
  | [], _, _, _, _, _, _, hfault => by
    obtain ⟨rfl, rfl, -⟩ := hfault
    exact List.prefix_rfl
  | .error _ :: _, _, _, _, _, _, _, hfault => hfault.elim
  | .ok chunk :: body, before, b, d, events, lines, h, hfault => by
    unfold FaultOf at hfault
    cases hin : faultIn before chunk with
    | none =>
      rw [hin] at hfault
      obtain ⟨⟨d', later⟩, hpush⟩ := h.push_iff.mpr hin
      exact full_prefix_of_fault (h.push hpush) hfault
    | some sound =>
      rw [hin] at hfault
      obtain ⟨rfl, rfl⟩ := hfault
      unfold faultIn at hin
      dsimp only at hin
      rw [soundLines_append h.lines] at hin
      split at hin
      · cases hin
        exact List.prefix_append _ _
      · cases hin

/-- **The events in front of a fault are sent** before its error, up to a `[DONE]`. -/
def KeepsEvents (body : List (Except ProviderError Bytes)) : Prop :=
  ∀ before lines, FaultOf [] body before lines → ∀ frames e, decodeResponse body = frames ++ [.error e] →
    (dataFrames (endedEvents (textsOf lines))).Sublist frames

/-- **They are exactly when the chunk that brings the fault ends none of them.**  An error frame that is not the failure to
read a chunk comes from such a fault. -/
theorem keepsEvents_iff (body : List (Except ProviderError Bytes)) :
    (∀ frames e, decodeResponse body = frames ++ [.error e] →
      .error e ∈ body ∨ ∃ before lines, FaultOf [] body before lines) ∧
    (KeepsEvents body ↔ ∀ before lines, FaultOf [] body before lines →
      dataFrames (endedEvents (textsOf lines)) = dataFrames (endedEvents (textsOf (Lines.full lineFeed before)))) := by
  refine ⟨fun frames e h => fault_of_error Reads.start (by rw [← decodeResponse, h]; simp), ?_, ?_⟩
  · intro hkeeps before lines hfault
    obtain ⟨more, rfl⟩ := full_prefix_of_fault Reads.start hfault
    obtain ⟨sent, e, hended, hframes⟩ := decodeFrom_fault Reads.start hfault
    rw [List.nil_append] at hended
    obtain ⟨lost, hlost⟩ := endedEvents_append (textsOf (Lines.full lineFeed before)) (textsOf more)
    have htexts : textsOf (Lines.full lineFeed before ++ more) =
        textsOf (Lines.full lineFeed before) ++ textsOf more := List.filterMap_append
    rw [htexts, hlost, dataFrames_append, hended]
    split_ifs with hdone
    · rw [List.append_nil]
    · rw [if_neg hdone] at hframes
      have hsub := hkeeps before _ hfault _ e hframes
      rw [htexts, hlost, dataFrames_append, hended, if_neg hdone] at hsub
      rw [hsub.eq_of_length_le (by simp)]
  · intro hsame before lines hfault frames e hframes
    obtain ⟨sent, e', hended, hsent⟩ := decodeFrom_fault Reads.start hfault
    rw [List.nil_append] at hended
    rw [hsame before lines hfault, hended]
    rw [decodeResponse, hsent] at hframes
    split_ifs at hframes with hdone
    · -- behind a `[DONE]` there is no error frame
      rw [List.append_nil] at hframes
      have hmem : .error e ∈ dataFrames sent := by
        rw [hframes]
        simp
      obtain ⟨event, -, hevent⟩ := List.mem_map.mp hmem
      cases hevent
    · rw [(List.append_inj' hframes rfl).1]

/-- An event and a line that is not text, in one chunk: the event is lost. -/
theorem event_lost : ¬ ∀ body, KeepsEvents body := by
  intro h
  have hfault : FaultOf [] [.ok (bytesOf "data: a\n\n" ++ [255, 10])] [] [bytesOf "data: a", []] := by
    unfold FaultOf
    have hin : faultIn [] (bytesOf "data: a\n\n" ++ [255, 10]) = some [bytesOf "data: a", []] := by decide +kernel
    rw [hin]
    exact ⟨rfl, rfl⟩
  have hframes : decodeResponse [.ok (bytesOf "data: a\n\n" ++ [255, 10])] =
      [] ++ [.error (protocol "SSE line is not UTF-8")] := by decide +kernel
  have hsub := h _ _ _ hfault _ _ hframes
  have hevents : dataFrames (endedEvents (textsOf [bytesOf "data: a", []])) = [.data "a"] := by decide +kernel
  rw [hevents] at hsub
  exact absurd hsub (by simp)

end Transport
end Syllog
