-- Messages as they travel: a message in its envelope, with an id when it wants
-- an answer, and what is sent back for it. What is no message is refused, and
-- ends the session.
import AbnfServer.Session.Wire

namespace AbnfServer

/-- What comes out of an envelope. -/
inductive Incoming
  | message (id : Option Json) (m : Message)
  /-- An answer. The server never asks, so it means nothing. -/
  | answer
  /-- No message of the protocol. -/
  | invalid

namespace Envelope

/-! ## Opening -/

/-- The version of the protocol for envelopes, which each of them tells. -/
def version : String := "2.0"

/-- Whether a number is a whole one of 64 bits with a sign. -/
def isWhole64 (j : Json) : Bool :=
  match j.asInt? with
  | some n => Int64.minValue.toInt ≤ n && n ≤ Int64.maxValue.toInt
  | none => false

/-- An id is a whole number, a text, or null. -/
def isId (j : Json) : Bool :=
  match j with
  | .null | .str _ => true
  | j => isWhole64 j

/-- An error has a code and a message, and perhaps data, but nothing else. -/
def isError (j : Json) : Bool :=
  match j with
  | .obj members =>
    (j.get? "code").any isWhole64 && ((j.get? "message").bind Json.asString?).isSome &&
      members.all fun e => ["code", "message", "data"].contains e.1
  | _ => false

/-- Whether an envelope holds an answer, with a result or an error. -/
def holdsAnswer (j : Json) : Bool :=
  (j.get? "id").isSome && ((j.get? "result").isSome || (j.get? "error").any isError)

/-- The method that an envelope tells. One that tells none asks for the method
with the empty name. -/
def method? (j : Json) : Option String :=
  match j.get? "method" with
  | none => some ""
  | some method => method.asString?

/-- Opens an envelope. -/
def openUp (j : Json) : Incoming :=
  let id := j.get? "id"
  if (j.get? "jsonrpc").bind Json.asString? != some version || !id.all isId then .invalid
  else if holdsAnswer j then .answer
  else
    match method? j with
    | none => .invalid
    | some method => .message id (Wire.readMessage method id.isSome (j.get? "params"))

/-! ## Sending -/

/-- Puts members into an envelope. -/
def wrap (members : List (String × Json)) : Json := .obj (("jsonrpc", .str version) :: members)

def ofNotice (n : Notice) : Json :=
  let (method, params) := Wire.ofNotice n
  wrap [("method", .str method), ("params", params)]

/-- The reply to the request of an id. -/
def ofReply (id : Json) (r : Reply) : Json := wrap [("id", id), Wire.ofReply r]

/-- What is sent for the effects of a message: the notices, then the reply to
the request of this id. -/
def ofEffects (id : Option Json) (e : Session.Effects) : List Json :=
  let reply := match id, e.reply with
    | some id, some r => [ofReply id r]
    | _, _ => []
  e.notices.map ofNotice ++ reply

/-- Refuses what is no message, under null for an id. Behind it nothing is
heard any more. -/
def breakOff (s : Session) (r : Refusal) : List Json × Session :=
  ([ofReply .null (.error r)], { s with phase := .exited })

/-- Takes what came in, or nothing for what is no JSON: tells what to send, and
how the session goes on. -/
def exchange (s : Session) (now : Nanos) (received : Option Json) : List Json × Session :=
  match s.phase, received.map openUp with
  | .exited, _ => ([], s)
  | _, none => breakOff s .unparsable
  | _, some .invalid => breakOff s .invalidRequest
  | _, some .answer => ([], s)
  | _, some (.message id m) =>
    let (effects, s) := s.receive now m
    ((effects.map (ofEffects id)).getD [], s)

end Envelope

end AbnfServer
