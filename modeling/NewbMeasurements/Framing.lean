import NewbMeasurements.Protocols

/-!
What the layers make of a payload. Every layer puts its header in front of what
the layers above it write, and finishes it when the payload is in the buffer; the
frame that results does not depend on what the buffer held before. The headers
can be read back.
-/

namespace NewbMeasurements.Protocols

open Words (Bytes encode decode length_encode decode_encode_append)
open Layers (SequenceType encodeSequence decodeSequence orderingHeaderLen baspHeaderLen overwrite
  decodeSequence_encodeSequence_append)

variable {σ τ μ α : Type}

/-! ## Headers -/

@[simp] theorem length_encode64 (x : UInt64) : (encode64 x).length = 8 := rfl

@[simp] theorem length_encodeBasp (h : BaspHeader) : (encodeBasp h).length = baspHeaderLen := rfl

@[simp] theorem length_encodeReliability (h : ReliabilityHeader) :
    (encodeReliability h).length = reliabilityHeaderLen := rfl

theorem decode64_encode64_append (x : UInt64) (rest : Bytes) :
    decode64 (encode64 x ++ rest) = some x := by
  have hx : x.toNat < 2 ^ 64 := x.toNat_lt
  have hlow : (encode64 x ++ rest).drop 4 = encode x.toUInt32 ++ rest := rfl
  rw [decode64, hlow, encode64, List.append_assoc, decode_encode_append, decode_encode_append]
  simp only [Option.bind_eq_bind, Option.bind_some, Option.pure_def, Option.some.injEq]
  apply UInt64.toNat_inj.mp
  simp [Nat.shiftRight_eq_div_pow, Nat.shiftLeft_eq]
  omega

theorem decodeBasp_encodeBasp_append (h : BaspHeader) (rest : Bytes) :
    decodeBasp (encodeBasp h ++ rest) = some h := by
  have hfrom : (encodeBasp h ++ rest).drop 4 = encode64 h.fromId ++ (encode64 h.toId ++ rest) := rfl
  have hto : (encodeBasp h ++ rest).drop 12 = encode64 h.toId ++ rest := rfl
  rw [decodeBasp, hfrom, hto, encodeBasp, List.append_assoc, List.append_assoc,
    decode_encode_append, decode64_encode64_append, decode64_encode64_append]
  rfl

theorem decodeReliability_encodeReliability_append (h : ReliabilityHeader) (rest : Bytes) :
    decodeReliability (encodeReliability h ++ rest) = some h := by
  obtain ⟨id, isAck⟩ := h
  have hid := decodeSequence_encodeSequence_append id []
  rw [List.append_nil] at hid
  cases isAck <;>
    simp only [encodeReliability, encodeSequence, List.cons_append, List.nil_append,
      decodeReliability] at hid ⊢ <;>
    rw [hid] <;> rfl

/-! ## Frames -/

/-- How a layer frames what it is given: a message `x` is written as a payload and,
maybe, with a header of the caller. `opened` and `closed` are the states after the
header is in the buffer and after it is finished; `outer` are the bytes that the
layers below have put in front. -/
structure Framing (L : Layer σ μ) (α : Type) where
  hw : α → Option Bytes
  payload : α → Bytes
  header : σ → α → Bytes
  opened : σ → α → σ
  frame : σ → α → Bytes
  closed : σ → α → σ
  writeHeader : ∀ s x buf, L.writeHeader s buf (hw x) = some (opened s x, buf ++ header s x)
  prepareForSending : ∀ s x pre outer,
    L.prepareForSending (opened s x) (pre ++ outer ++ header s x ++ payload x) pre.length
      outer.length (payload x).length = some ({ state := closed s x }, pre ++ outer ++ frame s x)

namespace Framing

/-- What a write appends to the buffer. -/
theorem write {L : Layer σ μ} (F : Framing L α) (s : σ) (x : α) (buf : Bytes) :
    L.write s buf (F.hw x) (F.payload x) =
      some ({ state := F.closed s x }, buf ++ F.frame s x) := by
  have hprep := F.prepareForSending s x buf []
  rw [List.append_nil] at hprep
  have hlen : (buf ++ F.header s x ++ F.payload x).length -
      (buf.length + ((buf ++ F.header s x).length - buf.length)) = (F.payload x).length := by
    simp only [List.length_append]
    omega
  simp only [Layer.write, F.writeHeader, Option.bind_eq_bind, Option.bind_some]
  rw [hlen]
  exact hprep

/-- `raw` adds nothing. -/
def raw : Framing Protocols.raw Bytes where
  hw _ := none
  payload x := x
  header _ _ := []
  opened s _ := s
  frame _ x := x
  closed s _ := s
  writeHeader s x buf := by rw [List.append_nil]; rfl
  prepareForSending s x pre outer := by rw [List.append_nil]; rfl

/-- The first word of a header that has been written is replaced. -/
theorem overwrite_encodeBasp (h : BaspHeader) (n : Nat) (rest : Bytes) :
    overwrite (encodeBasp h ++ rest) (encode (UInt32.ofNat n)) =
      some (encodeBasp { h with payloadLen := UInt32.ofNat n } ++ rest) := by
  have hroom : (encode (UInt32.ofNat n)).length ≤ (encodeBasp h ++ rest).length := by
    rw [List.length_append, length_encode, length_encodeBasp]
    exact Nat.le_trans (by decide) (Nat.le_add_right baspHeaderLen _)
  rw [overwrite, if_pos hroom]
  rfl

/-- A BASP message is written with the header that it is to have, but for the length. -/
def basp (L : Layer σ NewBaspMsg) (hw : L.writeHeader = baspWriteHeader)
    (hp : L.prepareForSending = baspPrepareForSending) : Framing L (BaspHeader × Bytes) where
  hw x := some (encodeBasp x.1)
  payload x := x.2
  header _ x := encodeBasp x.1
  opened s _ := s
  frame _ x := encodeBasp { x.1 with payloadLen := UInt32.ofNat x.2.length } ++ x.2
  closed s _ := s
  writeHeader s x buf := by rw [hw]; rfl
  prepareForSending s x pre outer := by
    have hsplit : pre.length + outer.length = (pre ++ outer).length := List.length_append.symm
    rw [hp, baspPrepareForSending, hsplit, List.append_assoc (pre ++ outer), List.drop_left,
      List.take_left, overwrite_encodeBasp, Option.map_some]

/-- `ordering` puts the next sequence number in front. -/
def ordering {L : Layer σ μ} (F : Framing L α) (maxPendingMessages : Nat) :
    Framing (Protocols.ordering maxPendingMessages L) α where
  hw := F.hw
  payload := F.payload
  header o x := encodeSequence o.seqWrite ++ F.header o.next x
  opened o x := { o with seqWrite := o.seqWrite + 1, next := F.opened o.next x }
  frame o x := encodeSequence o.seqWrite ++ F.frame o.next x
  closed o x := { o with seqWrite := o.seqWrite + 1, next := F.closed o.next x }
  writeHeader o x buf := by
    simp only [Protocols.ordering, F.writeHeader, Option.map_some, List.append_assoc]
  prepareForSending o x pre outer := by
    have hprep := F.prepareForSending o.next x pre (outer ++ encodeSequence o.seqWrite)
    have hlen : (outer ++ encodeSequence o.seqWrite).length = outer.length + orderingHeaderLen := by
      rw [List.length_append]
      rfl
    rw [hlen] at hprep
    simp only [Protocols.ordering, List.append_assoc] at hprep ⊢
    rw [hprep]
    rfl

/-- The datagram that `reliability` makes of a frame. -/
def packet (id : IdType) (frame : Bytes) : Bytes := encodeReliability ⟨id, false⟩ ++ frame

/-- The state of `reliability` after a write. -/
def reliable {L : Layer σ μ} (F : Framing L α) (s : ReliabilityState σ) (x : α) :
    ReliabilityState σ where
  idWrite := s.idWrite + 1
  unacked := s.unacked.emplace s.idWrite (packet s.idWrite (F.frame s.next x))
  next := F.closed s.next x

/-- The packet is kept, its retransmission is scheduled, and it is in the buffer. -/
theorem write_reliability {L : Layer σ μ} (F : Framing L α) (s : ReliabilityState σ) (x : α)
    (buf : Bytes) :
    (reliability L).write s buf (F.hw x) (F.payload x) =
      some ({ state := F.reliable s x
              requests := [.setTimeout ReliabilityState.retransmitTo reliabilityAtom
                s.idWrite.toUInt32] },
        buf ++ packet s.idWrite (F.frame s.next x)) := by
  have hprep := F.prepareForSending s.next x buf (encodeReliability ⟨s.idWrite, false⟩)
  have hwrite := F.writeHeader s.next x (buf ++ encodeReliability ⟨s.idWrite, false⟩)
  have hlen : (buf ++ encodeReliability ⟨s.idWrite, false⟩ ++ F.header s.next x ++
      F.payload x).length - (buf.length + ((buf ++ encodeReliability ⟨s.idWrite, false⟩ ++
        F.header s.next x).length - buf.length)) = (F.payload x).length := by
    simp only [List.length_append]
    omega
  simp only [Layer.write, reliability, hwrite, Option.map_some, Option.bind_eq_bind,
    Option.bind_some]
  rw [hlen, ReliabilityState.prepareForSending, Nat.zero_add]
  rw [length_encodeReliability] at hprep
  rw [hprep]
  simp [reliable, packet, List.append_assoc]

end Framing

end NewbMeasurements.Protocols
