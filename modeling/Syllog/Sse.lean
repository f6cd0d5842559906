import Syllog.Frames
import Syllog.Lines
/-!
# Sse — the event stream of an HTTP provider

`http_transport.rs`: `SseDecoder` and the loop of `decode_response`.  A chunk is appended to the bytes that are pending, whose
lines are then taken off the front one by one; a line that cannot be taken fails the whole chunk, with the events the chunk
had completed.  The receiver stays open: a closed one only cuts what is sent short.  A body is the chunks of a response, each
of them perhaps the failure to read it.
-/
namespace Syllog
namespace Transport

/-! ## Decoder -/

def maxSseEventBytes : Nat := 1024 * 1024

structure SseDecoder where
  pending : Bytes
  data : List String
  dataBytes : Nat
deriving DecidableEq

def sseLimit : ProviderError := protocol "SSE event exceeded the one-megabyte limit"

/-- `str::strip_prefix`. -/
def stripPrefix (start text : String) : Option String :=
  if start.toList.isPrefixOf text.toList then some (String.ofList (text.toList.drop start.toList.length)) else none

/-- The value of a data line. -/
def dataValue (line : String) : Option String :=
  (stripPrefix "data:" line).map fun value => (stripPrefix " " value).getD value

def joinData (data : List String) : String := "\n".intercalate data

namespace SseDecoder

def new : SseDecoder := ⟨[], [], 0⟩

def pushData (d : SseDecoder) (value : String) : Except ProviderError SseDecoder :=
  let separator := if d.data = [] then 0 else 1
  let dataBytes := d.dataBytes + (value.utf8ByteSize + separator)
  if 2 ^ 64 ≤ dataBytes then .error (protocol "SSE event size overflowed")
  else if maxSseEventBytes < dataBytes then .error sseLimit
  else .ok { d with data := d.data ++ [value], dataBytes }

/-- One line of the loop of `push`: the decoder behind it and the event it ends. -/
def takeLine (d : SseDecoder) (line : Bytes) : Except ProviderError (SseDecoder × Option String) :=
  match fromUtf8 (stripCr line) with
  | none      => .error (protocol "SSE line is not UTF-8")
  | some line =>
    if line = "" then
      if d.data = [] then .ok (d, none) else .ok ({ d with data := [], dataBytes := 0 }, some (joinData d.data))
    else match dataValue line with
      | none       => .ok (d, none)
      | some value => (d.pushData value).map fun d => (d, none)

def takeLines (d : SseDecoder) : List Bytes → Except ProviderError (SseDecoder × List String)
  | []            => .ok (d, [])
  | line :: lines => do
    let (d, event) ← d.takeLine line
    let (d, events) ← d.takeLines lines
    return (d, event.toList ++ events)

def push (d : SseDecoder) (chunk : Bytes) : Except ProviderError (SseDecoder × List String) :=
  let pending := d.pending ++ chunk
  if maxSseEventBytes < pending.length then .error sseLimit
  else takeLines { d with pending := Lines.rest lineFeed pending } (Lines.full lineFeed pending)

/-- The data of a final line without its line feed. -/
def pushFinal (d : SseDecoder) : Except ProviderError SseDecoder :=
  if d.pending = [] then .ok d
  else match fromUtf8 d.pending with
    | none      => .error (protocol "final SSE line is not UTF-8")
    | some line => match dataValue (trimEndCr line) with
      | none       => .ok d
      | some value => d.pushData value

def finish (d : SseDecoder) : Except ProviderError (Option String) :=
  d.pushFinal.map fun d => if d.data = [] then none else some (joinData d.data)

end SseDecoder

/-! ## Response -/

def done : String := "[DONE]"

/-- The frames of the events in front of the first `[DONE]`, and whether there is none. -/
def sendEvents : List String → List TransportFrame × Bool
  | []              => ([], true)
  | event :: events =>
    if event = done then ([], false)
    else (.data event :: (sendEvents events).1, (sendEvents events).2)

def decodeFrom (d : SseDecoder) : List (Except ProviderError Bytes) → List TransportFrame
  | [] => match d.finish with
    | .ok (some event) => if event ≠ done then [.data event] else []
    | .ok none         => []
    | .error e         => [.error e]
  | .error e :: _ => [.error e]
  | .ok chunk :: body => match d.push chunk with
    | .error e        => [.error e]
    | .ok (d, events) =>
      if (sendEvents events).2 then (sendEvents events).1 ++ decodeFrom d body else (sendEvents events).1

/-- `decode_response`: the frames it sends. -/
def decodeResponse (body : List (Except ProviderError Bytes)) : List TransportFrame := decodeFrom .new body

/-! ## What a stream says -/

/-- The data lines of a group, joined. -/
def eventOf (group : List String) : Option String :=
  if group.filterMap dataValue = [] then none else some (joinData (group.filterMap dataValue))

/-- A blank line ends an event; the last may be open still. -/
def eventsOf (lines : List String) : List String := (lines.splitOn "").filterMap eventOf

/-- The events a blank line has ended. -/
def endedEvents (lines : List String) : List String := (lines.splitOn "").dropLast.filterMap eventOf

/-- The texts of a stream's lines, where all of them have one: one CR less, and none at the end of the last, which no line
feed ends. -/
def lineTexts (stream : Bytes) : List String :=
  ((Lines.full lineFeed stream).filterMap fromUtf8).map dropCr ++
    (fromUtf8 (Lines.rest lineFeed stream)).toList.map trimEndCr

/-- **The data frames of a stream**: its events in front of the first `[DONE]`. -/
def dataFrames (events : List String) : List TransportFrame := (events.takeWhile (· ≠ done)).map .data

end Transport
end Syllog
