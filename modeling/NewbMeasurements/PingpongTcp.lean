import NewbMeasurements.Actors

/-!
The four actors of `pingpong_tcp.cpp` and the client branches of its `caf_main`:
the traditional brokers `tcp_server` and `tcp_client`, and `raw_server` and
`raw_client` of the new kind. A message that no handler matches is dropped.
-/

namespace NewbMeasurements.PingpongTcp

open Words (Bytes encode)
open ByteStreams (ReceivePolicy)
open Actors

/-- `tcp_server` does not decode what it sends back. -/
def tcpServer (s : State) : Message → Reaction
  | .actor responder => ({ s with responder := some responder }, [])
  | .newConnection handle =>
    ({ s with other := some handle }, [.configureReadOf (some handle) (.exactly 4)])
  | .newData handle buf => (s, [.write (some handle) buf, .flush (some handle)])
  | .connectionClosed => (s, [.quit, .send s.responder .quit])
  | _ => (s, [])

/-- The state of `tcp_client` when it returns its handlers. -/
def tcpClientInit (hdl : ConnectionHandle) : State := { other := some hdl }

def tcpClient (counter₀ : UInt32) (s : State) : Message → Reaction
  | .start messages responder =>
    ({ s with responder := some responder, messages := messages },
      [.configureReadOf s.other (.exactly 4), .write s.other (encode 1), .flush s.other])
  | .newData handle buf =>
    let counter := readCounter counter₀ buf
    let s := { s with receivedMessages := s.receivedMessages + 1 }
    if s.messages ≤ s.receivedMessages.toUInt64 then
      (s, progress s.receivedMessages ++ [.send s.responder .quit])
    else
      (s, progress s.receivedMessages ++
        [.write (some handle) (encode (counter + 1)), .flush (some handle)])
  | .connectionClosed => (s, [.quit, .send s.responder .quit])
  | _ => (s, [])

/-- The state of `raw_server` when it returns its handlers. -/
def rawServerInit (responder : ActorId) : State := { responder := some responder }

/-- `raw_server` sets no read policy, and does not look at the deserialiser's result. -/
def rawServer (counter₀ : UInt32) (s : State) : Message → Reaction
  | .newRaw payload => (s, [.wrBuf (encode (readCounter counter₀ payload))])
  | .ioError op => (s, [.cerr (.serverError op), .quit, .stop, .send s.responder .quit])
  | _ => (s, [])

def rawClient (counter₀ : UInt32) (s : State) : Message → Reaction
  | .start messages responder =>
    ({ s with responder := some responder, messages := messages },
      [.configureRead (.exactly 4), .wrBuf (encode 1)])
  | .newRaw payload =>
    let counter := readCounter counter₀ payload
    let s := { s with receivedMessages := s.receivedMessages + 1 }
    if s.messages ≤ s.receivedMessages.toUInt64 then
      (s, progress s.receivedMessages ++
        [.cerr .gotAllMessages, .send s.responder .quit, .stop, .quit])
    else
      (s, progress s.receivedMessages ++ [.wrBuf (encode (counter + 1))])
  | .ioError op => (s, [.cerr (.clientError op), .stop, .quit, .send s.responder .quit])
  | _ => (s, [])

/-- The client branches of `caf_main`. -/
def cafMainClient : List Statement := [.sendStart, .awaitDone, .printDuration]

section Handlers

variable {counter₀ : UInt32} {s : State} {buf : Bytes} {handle : ConnectionHandle}

theorem tcpClient_last (hm : s.messages ≤ (s.receivedMessages + 1).toUInt64) :
    tcpClient counter₀ s (.newData handle buf) =
      ({ s with receivedMessages := s.receivedMessages + 1 },
        progress (s.receivedMessages + 1) ++ [.send s.responder .quit]) := by
  simp only [tcpClient, if_pos hm]

theorem tcpClient_next (hm : ¬ s.messages ≤ (s.receivedMessages + 1).toUInt64) :
    tcpClient counter₀ s (.newData handle buf) =
      ({ s with receivedMessages := s.receivedMessages + 1 },
        progress (s.receivedMessages + 1) ++
          [.write (some handle) (encode (readCounter counter₀ buf + 1)),
            .flush (some handle)]) := by
  simp only [tcpClient, if_neg hm]

theorem rawClient_last (hm : s.messages ≤ (s.receivedMessages + 1).toUInt64) :
    rawClient counter₀ s (.newRaw buf) =
      ({ s with receivedMessages := s.receivedMessages + 1 },
        progress (s.receivedMessages + 1) ++
          [.cerr .gotAllMessages, .send s.responder .quit, .stop, .quit]) := by
  simp only [rawClient, if_pos hm]

theorem rawClient_next (hm : ¬ s.messages ≤ (s.receivedMessages + 1).toUInt64) :
    rawClient counter₀ s (.newRaw buf) =
      ({ s with receivedMessages := s.receivedMessages + 1 },
        progress (s.receivedMessages + 1) ++
          [.wrBuf (encode (readCounter counter₀ buf + 1))]) := by
  simp only [rawClient, if_neg hm]

end Handlers

end NewbMeasurements.PingpongTcp
