import GitEdge.Lib.Framing
import GitEdge.Lib.Utf8
import GitEdge.Repo.Commit

/-!
# The edge's side of a push

The header of a receive-pack request (`parse_receive_header` of `wire/mod.rs`), the commit request
that `receive_inner` of `edge/mod.rs` makes of it, and the report that goes back to the client.

Names are bytes on the wire and text everywhere else. `RefCommand.ref` is where the one becomes the
other: the bytes are read as UTF-8, and what is not UTF-8 is replaced. The packet lines are found by
the packet-line library, which is a parameter; those of the report appear as their payloads, and the
side band only cuts the stream of report lines into frames.
-/

namespace GitEdge

open Sql

/-! ## The header -/

/-- A packet line. -/
inductive Pkt where
  | data (d : List UInt8)
  | flush
  | delim
  | responseEnd
deriving DecidableEq, Repr

/-- The reader of packet lines, with the errors of the library as `next` gives them. -/
abbrev PktDecoder : Type := Decoder UInt8 Error Pkt

/-- A command as the client sends it. -/
structure RefCommand where
  old : Oid
  new : Oid
  name : List UInt8
deriving DecidableEq, Repr

/-- The capabilities of a push. -/
structure ReceiveCaps where
  report_status : Bool
  report_status_v2 : Bool
  side_band_64k : Bool
  delete_refs : Bool
  quiet : Bool
  ofs_delta : Bool
  atomic : Bool
  agent : Option (List UInt8)
  object_format : ObjFormat
deriving DecidableEq, Repr

/-- The header of a receive-pack request. -/
structure ReceiveHeader where
  commands : List RefCommand
  caps : ReceiveCaps
  shallow : List Oid
deriving DecidableEq, Repr

/-- The bytes of a text of ASCII characters. -/
def ascii (s : String) : List UInt8 := s.toList.map fun c => UInt8.ofNat c.toNat

/-- What stands before and after the first byte `sep`. -/
def cutAt (sep : UInt8) : List UInt8 → Option (List UInt8 × List UInt8)
  | [] => none
  | b :: l =>
    if b = sep then some ([], l) else (cutAt sep l).map fun parts => (b :: parts.1, parts.2)

/-- `slice::strip_prefix`. -/
def stripFront (front l : List UInt8) : Option (List UInt8) :=
  if front.isPrefixOf l then some (l.drop front.length) else none

/-- The capabilities before any is read. -/
def ReceiveCaps.none : ReceiveCaps :=
  ⟨false, false, false, false, false, false, false, Option.none, .sha1⟩

/-- One capability. -/
def ReceiveCaps.read (caps : ReceiveCaps) (c : List UInt8) : Except Error ReceiveCaps :=
  if c = ascii "report-status" then .ok { caps with report_status := true }
  else if c = ascii "report-status-v2" then .ok { caps with report_status_v2 := true }
  else if c = ascii "side-band-64k" then .ok { caps with side_band_64k := true }
  else if c = ascii "delete-refs" then .ok { caps with delete_refs := true }
  else if c = ascii "quiet" then .ok { caps with quiet := true }
  else if c = ascii "ofs-delta" then .ok { caps with ofs_delta := true }
  else if c = ascii "atomic" then .ok { caps with atomic := true }
  else if c = ascii "no-thin" then .ok caps
  else if (ascii "agent=").isPrefixOf c then .ok { caps with agent := some c }
  else
    match stripFront (ascii "object-format=") c with
    | Option.none => .ok caps
    | some f =>
      if f = ascii "sha1" then .ok { caps with object_format := .sha1 }
      else if f = ascii "sha256" then .ok { caps with object_format := .sha256 }
      else .error (.protocol ("object-format " ++ String.ofList (Utf8.lossy f) ++ " unsupported"))

section

variable (from_hex : List UInt8 → Option Oid)

/-- `oid` of `wire/mod.rs`, over the decoder of hexadecimal ids. -/
def wireOid (hex : List UInt8) : Except Error Oid :=
  match from_hex hex with
  | some id => .ok id
  | none => .error (.protocol ("bad oid " ++ String.ofList (Utf8.lossy hex)))

/-- The command of a line without capabilities: the name is what follows the second space. -/
def parseCommand (line : List UInt8) : Except Error RefCommand := do
  match cutAt 0x20 line with
  | none => .error (.protocol "bad command")
  | some (old_hex, rest) =>
    match cutAt 0x20 rest with
    | none => .error (.protocol "bad command")
    | some (new_hex, name) =>
      if name = [] then .error (.protocol "command without ref name")
      else do
        let old ← wireOid from_hex old_hex
        let new ← wireOid from_hex new_hex
        pure ⟨old, new, name⟩

/-- One line of the header. Capabilities stand on the first command. -/
def headerLine (h : ReceiveHeader) (d : List UInt8) : Except Error ReceiveHeader := do
  let d := if d.getLast? = some 0x0a then d.dropLast else d
  match stripFront (ascii "shallow ") d with
  | some rest => do
    let id ← wireOid from_hex rest
    pure { h with shallow := h.shallow ++ [id] }
  | none =>
    match cutAt 0 d with
    | none => do
      let c ← parseCommand from_hex d
      pure { h with commands := h.commands ++ [c] }
    | some (line, caps) =>
      if h.commands ≠ [] then .error (.protocol "capabilities on a later command")
      else do
        let caps ← (caps.splitOn 0x20).foldlM ReceiveCaps.read h.caps
        let c ← parseCommand from_hex line
        pure { h with commands := h.commands ++ [c], caps := caps }

/-- One packet of the header. -/
def headerStep (h : ReceiveHeader) : Pkt → Except Error (ReceiveHeader ⊕ ReceiveHeader)
  | .flush => .ok (.inr h)
  | .delim => .error (.protocol "delim/response-end in receive header")
  | .responseEnd => .error (.protocol "delim/response-end in receive header")
  | .data l => (headerLine from_hex h l).map .inl

/-- `parse_receive_header` on the bytes of a reader, with the bytes that it leaves. -/
def parseReceiveHeader (d : PktDecoder) (b : List UInt8) :
    Decoder.Scan UInt8 Error ReceiveHeader ReceiveHeader :=
  d.scan (headerStep from_hex) ⟨[], .none, []⟩ b

end

/-! ## The commit -/

/-- The ref that a name on the wire becomes: `to_string` of a byte string. -/
def refOf (name : List UInt8) : String := String.ofList (Utf8.lossy name)

/-- The ref that a command acts on. -/
def RefCommand.ref (c : RefCommand) : String := refOf c.name

/-- The body of the commit request; `tags` are the tags of the pushed pack with what they point
to. -/
def ReceiveHeader.commitRequest (hdr : ReceiveHeader) (push : PushId) (pack : Option PackId)
    (principal : String) (tags : Oid → Option Oid) : CommitRequest where
  push_id := push
  pack_id := pack
  principal := principal
  commands := hdr.commands.map fun c => ⟨c.old, c.new, c.ref, (tags c.new).map .id⟩
  atomic := hdr.caps.atomic

/-! ## The report -/

/-- `RefResult` of `wire/mod.rs`. -/
inductive RefReport where
  | ok (name : List UInt8)
  | ng (name : List UInt8) (why : String)
deriving DecidableEq, Repr

/-- `leak_reason`: a reason that is not known becomes the general one. -/
def leakReason (m : String) : String :=
  if ["funny refname", "deletion of the current branch prohibited", "missing necessary objects",
      "gc ran during push, retry", "ref is pinned", "ref outside token scope",
      "token no longer valid", "protected ref: deletion refused", "protected ref: non-fast-forward",
      "protected ref: cannot prove fast-forward"].contains m then m
  else "failed to update ref"

/-- The result of one command, from the answer of the commit. -/
def RefReport.ofResult (r : RefResult) : RefReport :=
  match r.2 with
  | none => .ok (Utf8.encode r.1.toList)
  | some m => .ng (Utf8.encode r.1.toList) (leakReason m)

/-- `u8::is_ascii_graphic`. -/
def isGraphic (b : UInt8) : Bool := 0x21 ≤ b.toNat && b.toNat ≤ 0x7e

/-- `echo_name`. -/
def echoName (n : List UInt8) : List UInt8 := n.map fun b => if isGraphic b then b else 0x3f

/-- The text of a report line. -/
def RefReport.text : RefReport → List UInt8
  | .ok n => ascii "ok " ++ echoName n
  | .ng n why => ascii "ng " ++ echoName n ++ ascii " " ++ Utf8.encode why.toList

/-- `MAX_PKT_DATA`. -/
def maxPktData : ℕ := 65516

/-- A text with a line break at its end. -/
def withBreak (s : List UInt8) : List UInt8 :=
  if s.getLast? = some 0x0a then s else s ++ [0x0a]

/-- `PktWriter::text`: a line that is too long is an error. -/
def pktText (s : List UInt8) : Except Error (List UInt8) :=
  if maxPktData < (withBreak s).length then .error (.internal "pkt-line over 65516 bytes")
  else .ok (withBreak s)

/-- `write_report_status`: the lines of the report. -/
def writeReportStatus (unpack : Except String Unit) (results : List RefReport) :
    Except Error (List (List UInt8)) := do
  let first ← pktText (match unpack with
    | .ok () => ascii "unpack ok"
    | .error m => ascii "unpack " ++ Utf8.encode m.toList)
  let lines ← results.mapM fun r => pktText r.text
  pure (first :: lines)

/-- The client asked for a report. -/
def ReceiveCaps.asked (caps : ReceiveCaps) : Bool := caps.report_status || caps.report_status_v2

/-- `report_status_200`: no report for a client that did not ask, and a refusal of every command
when the push failed. -/
def reportStatus200 (hdr : ReceiveHeader) (unpack : Except String Unit) (results : List RefReport) :
    Except Error (Option (List (List UInt8))) :=
  if !hdr.caps.asked then .ok none
  else
    let failed := match unpack with
      | .ok () => false
      | .error _ => true
    let results :=
      if results.isEmpty && failed then hdr.commands.map fun c => .ng c.name "unpack failed"
      else results
    (writeReportStatus unpack results).map some

/-- `Error::message`. -/
def Error.message : Error → String
  | .protocol m | .unpack m | .limit m | .storage m | .internal m | .conflict m => m
  | .auth => "authentication required"
  | .forbidden => "forbidden"
  | .notFound => "not found"
  | .budget => "request budget exhausted"
  | .gone => "repository deleted"
  | .rateLimit s => s!"rate limit exceeded, retry in {s}s"
  | .busy s => s!"server busy, retry in {s}s"

/-- `Error::client_message`: no details of storage and internal errors, and plain characters
only. -/
def Error.clientMessage (e : Error) : String :=
  let m := match e with
    | .storage _ => "internal error"
    | .internal _ => "internal error"
    | e => e.message
  String.ofList ((m.toList.take 512).map fun c =>
    if (0x21 ≤ c.toNat && c.toNat ≤ 0x7e) || c = ' ' then c else '?')

/-- The end of `receive_pack`, from the answer of the commit: the report, or the report of a failed
push. A push that is throttled is answered with its status. -/
def receiveResponse (hdr : ReceiveHeader) (commit : Except Error (List RefResult)) :
    Except Error (Option (List (List UInt8))) :=
  match commit.bind fun results =>
    reportStatus200 hdr (.ok ()) (results.map RefReport.ofResult) with
  | .ok r => .ok r
  | .error e =>
    match e with
    | .rateLimit _ => .error e
    | .busy _ => .error e
    | _ => reportStatus200 hdr (.error e.clientMessage) []

end GitEdge
