import NewbMeasurements.Actors

/-!
The two actors of `pingpong_udp.cpp` and the client branch of its `caf_main`.
A message that no handler matches is dropped. `counter₀` is the value that an
uninitialised `counter` happens to have.
-/

namespace NewbMeasurements.PingpongUdp

open Words (Bytes encode)
open Actors

/-- The state of `raw_server` when it returns its handlers. -/
def rawServerInit (responder : ActorId) : State := { responder := some responder }

def rawServer (counter₀ : UInt32) (s : State) : Message → Reaction
  | .timeout atm id => (s, [.protoTimeout atm id])
  | .newRaw payload =>
    let counter := readCounter counter₀ payload
    if counter ≠ s.receivedMessages then (s, [])
    else ({ s with receivedMessages := s.receivedMessages + 1 }, [.wrBuf (encode counter)])
  | .ioError op => (s, [.cerr (.serverError op), .sendSelf .quit])
  | .quit => (s, [.quit, .stop, .send s.responder .quit])
  | _ => (s, [])

def rawClient (counter₀ : UInt32) (s : State) : Message → Reaction
  | .timeout atm id => (s, [.protoTimeout atm id])
  | .start messages responder =>
    ({ s with responder := some responder, messages := messages }, [.wrBuf (encode 0)])
  | .newRaw payload =>
    let counter := readCounter counter₀ payload
    if counter ≠ s.receivedMessages then (s, [])
    else
      let s := { s with receivedMessages := s.receivedMessages + 1 }
      if s.messages ≤ s.receivedMessages.toUInt64 then
        (s, progress s.receivedMessages ++
          [.cerr .gotAllMessages, .delayedSendSelf 500 .quit, .send s.responder .quit])
      else
        (s, progress s.receivedMessages ++ [.wrBuf (encode (counter + 1))])
  | .ioError op => (s, [.cerr (.clientError op), .sendSelf .quit])
  | .quit => (s, [.quit, .stop, .send s.responder .quit])
  | _ => (s, [])

/-- The client branch of `caf_main`; it awaits a second `quit_atom` in the
unordered mode. -/
def cafMainClient (isOrdered : Bool) : List Statement :=
  if isOrdered then [.sendStart, .awaitDone, .printDuration, .abort]
  else [.sendStart, .awaitDone, .printDuration, .awaitDone, .abort]

section Handlers

variable {counter₀ : UInt32} {s : State} {payload : Bytes}

theorem rawServer_stale (h : readCounter counter₀ payload ≠ s.receivedMessages) :
    rawServer counter₀ s (.newRaw payload) = (s, []) := by
  simp [rawServer, h]

theorem rawServer_accept (h : readCounter counter₀ payload = s.receivedMessages) :
    rawServer counter₀ s (.newRaw payload) =
      ({ s with receivedMessages := s.receivedMessages + 1 },
        [.wrBuf (encode s.receivedMessages)]) := by
  simp [rawServer, h]

theorem rawClient_stale (h : readCounter counter₀ payload ≠ s.receivedMessages) :
    rawClient counter₀ s (.newRaw payload) = (s, []) := by
  simp [rawClient, h]

/-- The branch that prints `got all messages!`. -/
theorem rawClient_last (h : readCounter counter₀ payload = s.receivedMessages)
    (hm : s.messages ≤ (s.receivedMessages + 1).toUInt64) :
    rawClient counter₀ s (.newRaw payload) =
      ({ s with receivedMessages := s.receivedMessages + 1 },
        progress (s.receivedMessages + 1) ++
          [.cerr .gotAllMessages, .delayedSendSelf 500 .quit, .send s.responder .quit]) := by
  simp only [rawClient, h, ne_eq, not_true_eq_false, if_false, if_pos hm]

theorem rawClient_next (h : readCounter counter₀ payload = s.receivedMessages)
    (hm : ¬ s.messages ≤ (s.receivedMessages + 1).toUInt64) :
    rawClient counter₀ s (.newRaw payload) =
      ({ s with receivedMessages := s.receivedMessages + 1 },
        progress (s.receivedMessages + 1) ++ [.wrBuf (encode (s.receivedMessages + 1))]) := by
  simp only [rawClient, h, ne_eq, not_true_eq_false, if_false, if_neg hm]

end Handlers

end NewbMeasurements.PingpongUdp
