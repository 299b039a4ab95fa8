/-
  Received frames act through their own bytes.

  The handlers of `net_socket_deliver` look at fixed places of the receive buffer, whatever
  the length and the type of the frame are.  A frame is `Whole` if everything they look at
  is inside it and its type is the one of what they find.  Such frames change the network in
  a way that does not depend on what lies behind them in the buffer, and the replies to them
  have their type.
-/
import Kabanos.Net.Receive

namespace Kabanos

/-- The two buffers have the same first `len` bytes. -/
def Agree (len : ℕ) (b b' : Buf) : Prop := ∀ i < len, b' i = b i

section
variable {b b' : Buf} {len off n : ℕ}

theorem agree_memcpy (rest data : Buf) (len : ℕ) : Agree len data (memcpy rest 0 data 0 len) := by
  intro i hi
  rw [memcpy_in (Nat.zero_le i) (by omega)]
  simp

section
variable (h : Agree len b b')
include h

theorem Agree.getBytes (hn : off + n ≤ len) : getBytes b' off n = getBytes b off n :=
  List.map_congr_left fun k hk => h _ (by have := List.mem_range.1 hk; omega)

theorem Agree.getBe16 (hn : off + 2 ≤ len) : getBe16 b' off = getBe16 b off := by
  unfold Kabanos.getBe16
  rw [h off (by omega), h (off + 1) (by omega)]

theorem Agree.arpPacket (hn : 42 ≤ len) : arpPacket b' = arpPacket b := by
  unfold Kabanos.arpPacket
  rw [h.getBe16 (by omega), h.getBytes (by omega), h.getBytes (by omega), h.getBytes (by omega)]

theorem Agree.ipv4Header (hn : 34 ≤ len) : ipv4Header b' = ipv4Header b := by
  unfold Kabanos.ipv4Header
  rw [h 14 (by omega), h 23 (by omega), h.getBe16 (by omega), h.getBytes (by omega),
    h.getBytes (by omega)]

theorem Agree.deliver (ethertype ticks : ℕ) (s : Socket) :
    s.deliver b' len ethertype ticks = s.deliver b len ethertype ticks := by
  have e : ∀ slot : Buf, ∀ k ≤ len, memcpy slot 0 b' 0 k = memcpy slot 0 b 0 k := by
    intro slot k hk
    funext j
    unfold memcpy
    split_ifs with hj
    · exact h _ (by omega)
    · rfl
  simp only [Socket.deliver]
  rw [e _ (if len < 2048 then len else 2048) (by split_ifs <;> omega)]

end

end

/-! ## Frames -/

/-- The number of bytes of the frame; a frame that the driver refuses has none. -/
def Arrival.len (a : Arrival) : ℕ := if a.length < 4 ∨ 2048 < a.length - 4 then 0 else a.length - 4

/-- Everything the handlers look at is inside the frame, and of the frame's type. -/
structure Whole (nic : Nic) (data : Buf) (len : ℕ) : Prop where
  /-- there is room for an ARP packet -/
  room : 42 ≤ len
  /-- what looks like an ARP reply or an ARP request for us is one -/
  arp : getBe16 data 12 = etherTypeArp ∨
    (arpPacket data).operation ≠ 2 ∧ checkArpIsForUs nic (arpPacket data) = false
  /-- type and code of what looks like an ICMP packet for us are in the frame -/
  icmp : checkArpIsForUs nic (arpPacket data) = false → (ipv4Header data).isIcmpForUs nic →
    14 + (ipv4Header data).length + 2 ≤ len
  /-- what looks like an echo request for us is one, and the frame holds all of it -/
  ping : checkArpIsForUs nic (arpPacket data) = false → icmpIsPingRequest nic data →
    getBe16 data 12 = etherTypeIpv4 ∧
      (ipv4Header data).length + 8 ≤ (ipv4Header data).totalLength ∧
      14 + (ipv4Header data).totalLength ≤ len ∧
      (ipv4Header data).totalLength - (ipv4Header data).length ≤ 1466

/-- A frame that acts through its own bytes and type. -/
def Arrival.Proper (nic : Nic) (a : Arrival) : Prop := a.len < 14 ∨ Whole nic a.data a.len

def sentType (packet : List UInt8) : ℕ := 256 * (packet.getD 12 0).toNat + (packet.getD 13 0).toNat

section
variable {nic : Nic} {b b' : Buf} {len : ℕ} {n : Net}

theorem getBytes_length (b : Buf) (off k : ℕ) : (getBytes b off k).length = k := by
  simp [getBytes]

theorem Whole.isPing (w : Whole nic b len) (h : Agree len b b')
    (hr : checkArpIsForUs nic (arpPacket b) = false) :
    icmpIsPingRequest nic b' = icmpIsPingRequest nic b := by
  have hroom := w.room
  simp only [icmpIsPingRequest, h.ipv4Header (show 34 ≤ len by omega)]
  cases hi : (ipv4Header b).isIcmpForUs nic with
  | false => rfl
  | true =>
    have hin := w.icmp hr hi
    simp only [h _ (show 14 + (ipv4Header b).length < len by omega),
      h _ (show 14 + (ipv4Header b).length + 1 < len by omega)]

theorem sentType_append {l : List UInt8} (h : l.length = 12) (x y : UInt8) (rest : List UInt8) :
    sentType (l ++ ([x, y] ++ rest)) = 256 * x.toNat + y.toNat := by
  simp [sentType, List.getElem?_append_right (show l.length ≤ 13 by omega), h]

theorem arpReply_type (nic : Nic) (packet : Buf) :
    sentType (arpReply nic (arpPacket packet)) = etherTypeArp := by
  simp only [arpReply, List.append_assoc]
  rw [← List.append_assoc]
  exact sentType_append (by simp [arpPacket, getBytes_length, nic.mac_length]) 0x08 0x06 _

theorem pingReply_type {packet : Buf} {reply : List UInt8} (h : pingReply nic packet = some reply) :
    sentType reply = etherTypeIpv4 := by
  simp only [pingReply] at h
  split_ifs at h
  cases h
  simp only [List.append_assoc]
  rw [← List.append_assoc]
  exact sentType_append (by simp [getBytes_length, nic.mac_length]) 0x08 0x00 _

/-- An echo request with its lengths in order, and a reply that fits in the buffer. -/
structure EchoFits (packet : Buf) : Prop where
  icmp : (ipv4Header packet).length + 8 ≤ (ipv4Header packet).totalLength
  reply : 34 + ((ipv4Header packet).totalLength - (ipv4Header packet).length) ≤ 1500

theorem totalLength_lt (b : Buf) : (ipv4Header b).totalLength < 65536 := by
  have := (b 16).toNat_lt
  have := (b (16 + 1)).toNat_lt
  simp only [ipv4Header, getBe16]
  omega

theorem EchoFits.total (h : EchoFits b) :
    ((ipv4Header b).totalLength + 2 ^ 32 - (ipv4Header b).length) % 2 ^ 32 =
      (ipv4Header b).totalLength - (ipv4Header b).length := by
  have h1 := h.icmp
  have h2 := totalLength_lt b
  omega

theorem pingReply_agree (h : Agree len b b') (hlen : 30 ≤ len) (hfit : EchoFits b)
    (hin : 14 + (ipv4Header b).totalLength ≤ len) : pingReply nic b' = pingReply nic b := by
  have h1 := hfit.icmp
  have hip : (ipv4Header b').length = (ipv4Header b).length ∧
      (ipv4Header b').totalLength = (ipv4Header b).totalLength ∧
      (ipv4Header b').srcIp = (ipv4Header b).srcIp := by
    refine ⟨?_, h.getBe16 (by omega), h.getBytes (by omega)⟩
    simp only [Ipv4Header.length, ipv4Header, h 14 (by omega)]
  simp only [pingReply, replyIpHeader, hip, hfit.total]
  rw [h.getBytes (show 6 + 6 ≤ len by omega), h.getBytes (show 14 + (ipv4Header b).length + 4 +
    ((ipv4Header b).totalLength - (ipv4Header b).length - 4) ≤ len by omega)]

theorem Whole.pingReply (w : Whole nic b len) (hr : checkArpIsForUs nic (arpPacket b) = false)
    (hping : icmpIsPingRequest nic b) :
    ∃ reply, ∀ b', Agree len b b' → Kabanos.pingReply nic b' = some reply := by
  have hroom := w.room
  obtain ⟨-, h1, h2, h3⟩ := w.ping hr hping
  have hfit : EchoFits b := ⟨h1, by omega⟩
  obtain ⟨reply, hb⟩ : ∃ reply, Kabanos.pingReply nic b = some reply := by
    simp only [Kabanos.pingReply, hfit.total]
    rw [if_neg (by omega)]
    exact ⟨_, rfl⟩
  exact ⟨reply, fun b' h => (pingReply_agree h (by omega) hfit h2).trans hb⟩

/-! ## Delivery -/

/-- What a frame of type `t` may do to the network. -/
structure OwnType (t : ℕ) (n n' : Net) : Prop where
  arp : n'.arpCache ≠ n.arpCache ∨ n'.arpCacheNext ≠ n.arpCacheNext → t = etherTypeArp
  replies : ∃ new, n'.sent = n.sent ++ new ∧ ∀ packet ∈ new, sentType packet = t

theorem OwnType.refl (t : ℕ) (n : Net) : OwnType t n n :=
  ⟨fun h => h.elim (absurd rfl) (absurd rfl), [], (List.append_nil _).symm, by simp⟩

theorem OwnType.send {t : ℕ} {n n' : Net} (h : OwnType t n n') {packet : List UInt8}
    (hp : sentType packet = t) : OwnType t n (rtl8139SendPacket n' packet) := by
  unfold rtl8139SendPacket
  split_ifs
  · exact h
  · obtain ⟨new, hs, hn⟩ := h.replies
    refine ⟨h.arp, new ++ [packet], by simp [hs], fun q hq => ?_⟩
    rcases List.mem_append.1 hq with hq | hq
    · exact hn q hq
    · rw [List.mem_singleton.1 hq, hp]

theorem arpCacheInsert_sent (n : Net) (ip mac : List UInt8) :
    (arpCacheInsert n ip mac).sent = n.sent := by
  unfold arpCacheInsert
  split <;> rfl

/-- **A whole frame acts through its own bytes and type.** -/
theorem Whole.deliver (w : Whole nic b len) (ticks : ℕ) (n : Net) :
    ∃ n', (∀ b', Agree len b b' → netSocketDeliver nic ticks b' len n = some n') ∧
      OwnType (getBe16 b 12) n n' := by
  have hroom := w.room
  -- the part of ARP
  obtain ⟨n1, hn1⟩ : ∃ n1, (if (arpPacket b).operation = 2 then
      arpCacheInsert n (arpPacket b).srcIp (arpPacket b).srcMac else n) = n1 := ⟨_, rfl⟩
  have t1 : OwnType (getBe16 b 12) n n1 := by
    subst hn1
    split_ifs with hop
    · have harp : getBe16 b 12 = etherTypeArp := w.arp.resolve_right fun h => h.1 hop
      exact ⟨fun _ => harp, [], by simp [arpCacheInsert_sent], by simp⟩
    · exact .refl _ n
  cases hr : checkArpIsForUs nic (arpPacket b) with
  | true =>
    have harp : getBe16 b 12 = etherTypeArp :=
      w.arp.resolve_right fun h => by rw [hr] at h; exact absurd h.2 (by decide)
    refine ⟨rtl8139SendPacket n1 (arpReply nic (arpPacket b)), fun b' h => ?_,
      t1.send ((arpReply_type nic b).trans harp.symm)⟩
    simp only [netSocketDeliver, arpHandle, h.arpPacket hroom, hr, hn1,
      if_neg (show ¬ len < 14 by omega), Bool.not_false, if_true]
  | false =>
    -- the part of ICMP
    obtain ⟨n2, hn2, t2⟩ : ∃ n2, (∀ b', Agree len b b' → icmpHandle nic b' n1 = some n2) ∧
        OwnType (getBe16 b 12) n n2 := by
      cases hp : icmpIsPingRequest nic b with
      | false =>
        refine ⟨n1, fun b' h => ?_, t1⟩
        rw [icmpHandle, w.isPing h hr, hp]
        rfl
      | true =>
        obtain ⟨reply, hreply⟩ := w.pingReply hr hp
        have ht := pingReply_type (hreply b fun _ _ => rfl)
        refine ⟨rtl8139SendPacket n1 reply, fun b' h => ?_,
          t1.send (ht.trans (w.ping hr hp).1.symm)⟩
        rw [icmpHandle, w.isPing h hr, hp, hreply b' h]
        rfl
    refine ⟨{ n2 with sockets := fun i => if i < maxSockets then
        (n2.sockets i).deliver b len (getBe16 b 12) ticks else n2.sockets i },
      fun b' h => ?_, t2.arp, t2.replies⟩
    simp only [netSocketDeliver, arpHandle, h.arpPacket hroom, hr, hn1,
      if_neg (show ¬ len < 14 by omega), h.getBe16 (show 12 + 2 ≤ len by omega), h.deliver,
      Bool.false_eq_true, if_false, Bool.not_true, hn2 b' h, Option.map_some]

/-! ## Histories of frames -/

theorem receivePacket_cases (buffer : Buf) (a : Arrival) :
    rtl8139ReceivePacket buffer 2048 a = (buffer, 0) ∧ a.len = 0 ∨
      rtl8139ReceivePacket buffer 2048 a = (memcpy buffer 0 a.data 0 a.len, a.len) := by
  unfold rtl8139ReceivePacket Arrival.len
  split_ifs with h1 h2 h2 h3 h3
  · exact Or.inl ⟨rfl, rfl⟩
  · exact absurd (Or.inl h1) h2
  · exact Or.inl ⟨rfl, rfl⟩
  · exact absurd (Or.inr h2) h3
  · exact absurd h3 (by omega)
  · exact Or.inr rfl

variable {a : Arrival}

theorem Arrival.Proper.deliver (ha : a.Proper nic) (n : Net) :
    ∃ n', (∀ rest, netSocketDeliver nic a.ticks (memcpy rest 0 a.data 0 a.len) a.len n = some n') ∧
      OwnType (getBe16 a.data 12) n n' := by
  rcases ha with h | w
  · exact ⟨n, fun rest => if_pos h, .refl _ n⟩
  · obtain ⟨n', h, t⟩ := w.deliver a.ticks n
    exact ⟨n', fun rest => h _ (agree_memcpy rest a.data a.len), t⟩

theorem Arrival.Proper.handle (ha : a.Proper nic) (rx : Rx) :
    ∃ rx', rtl8139IsrHandler nic rx a = some rx' ∧
      (∀ rest, netSocketDeliver nic a.ticks (memcpy rest 0 a.data 0 a.len) a.len rx.toNet =
        some rx'.toNet) ∧
      OwnType (getBe16 a.data 12) rx.toNet rx'.toNet := by
  obtain ⟨n', h, t⟩ := ha.deliver rx.toNet
  rcases receivePacket_cases rx.receivedPacketBuffer a with ⟨e, h0⟩ | e
  · have hn : n' = rx.toNet := by
      have := h rx.receivedPacketBuffer
      rw [h0] at this
      exact (Option.some.inj this).symm
    subst hn
    refine ⟨⟨rx.toNet, rx.receivedPacketBuffer, 0⟩, ?_, h, t⟩
    simp only [rtl8139IsrHandler, e]
    rfl
  · refine ⟨⟨n', memcpy rx.receivedPacketBuffer 0 a.data 0 a.len, a.len⟩, ?_, h, t⟩
    simp only [rtl8139IsrHandler, e]
    split_ifs with h0
    · rw [h]
      rfl
    · have hn : n' = rx.toNet := by
        have := h rx.receivedPacketBuffer
        rw [netSocketDeliver, if_pos (by omega)] at this
        exact (Option.some.inj this).symm
      rw [hn]

theorem receiveAll_proper {as : List Arrival} (h : ∀ a ∈ as, a.Proper nic) (rx : Rx) :
    ∃ rx', receiveAll nic rx as = some rx' := by
  induction as generalizing rx with
  | nil => exact ⟨rx, rfl⟩
  | cons a as ih =>
    obtain ⟨rx1, h1, -⟩ := (h a List.mem_cons_self).handle rx
    obtain ⟨rx', h'⟩ := ih (fun a ha => h a (List.mem_cons_of_mem _ ha)) rx1
    refine ⟨rx', ?_⟩
    rw [receiveAll, List.foldlM_cons, h1]
    exact h'

/-- **In every history of proper frames, each frame acts through its own bytes and type**: the
    network afterwards is the same whatever lies behind the frame in the buffer, only ARP
    frames change the ARP cache, and every reply has the type of the frame. -/
theorem frames_act_through_own_bytes (nic : Nic) (rx₀ : Rx) (history : List Arrival)
    (hh : ∀ a ∈ history, a.Proper nic) (a : Arrival) (ha : a.Proper nic) :
    ∃ rx rx', receiveAll nic rx₀ history = some rx ∧ rtl8139IsrHandler nic rx a = some rx' ∧
      (∀ rest, netSocketDeliver nic a.ticks (memcpy rest 0 a.data 0 a.len) a.len rx.toNet =
        some rx'.toNet) ∧
      OwnType (getBe16 a.data 12) rx.toNet rx'.toNet := by
  obtain ⟨rx, h⟩ := receiveAll_proper hh rx₀
  obtain ⟨rx', h'⟩ := ha.handle rx
  exact ⟨rx, rx', h, h'⟩

/-! ## Frames on a small network -/

/-- No socket is open and nothing has been received. -/
def demoRx : Rx where
  arpCache _ := ⟨[0, 0, 0, 0], [0, 0, 0, 0, 0, 0], false⟩
  arpCacheNext := 0
  sockets _ := ⟨false, 0, fun _ => ⟨fun _ => 0, 0, 0⟩, 0, 0, 0⟩
  sent := []
  receivedPacketBuffer _ := 0
  receivedPacketLength := 0

/-- The frame with the given bytes. -/
def Arrival.ofList (bytes : List UInt8) : Arrival := ⟨fun i => bytes.getD i 0, bytes.length + 4, 0⟩

/-- An ARP packet of `10.0.0.x` with the given operation, asking for or answering `target`. -/
def demoArp (op x target : UInt8) : Arrival :=
  .ofList ([255, 255, 255, 255, 255, 255, 2, 0, 0, 0, 0, x, 0x08, 0x06, 0, 1, 8, 0, 6, 4, 0, op] ++
    [2, 0, 0, 0, 0, x, 10, 0, 0, x, 0, 0, 0, 0, 0, 0, 10, 0, 0, target])

theorem demoArp_proper (op x target : UInt8) : (demoArp op x target).Proper demoNic := by
  refine Or.inr ⟨le_refl 42, Or.inl rfl, fun _ h => ?_, fun _ h => ?_⟩
  · exact show 14 + 0 % 16 * 4 + 2 ≤ 42 by decide
  · -- the first byte of an ARP packet is no echo request
    exact absurd h (by
      simp [icmpIsPingRequest, ipv4Header, Ipv4Header.length, demoArp, Arrival.ofList])

/-- An ARP reply of `10.0.0.1` and then a request for our address. -/
theorem arp_frames_act_through_own_bytes :
    ∃ rx rx', receiveAll demoNic demoRx [demoArp 2 1 100] = some rx ∧
      rtl8139IsrHandler demoNic rx (demoArp 1 7 100) = some rx' ∧
      (∀ rest, netSocketDeliver demoNic 0 (memcpy rest 0 (demoArp 1 7 100).data 0 42) 42 rx.toNet =
        some rx'.toNet) ∧
      OwnType etherTypeArp rx.toNet rx'.toNet :=
  frames_act_through_own_bytes demoNic demoRx [demoArp 2 1 100]
    (by simpa using demoArp_proper 2 1 100) (demoArp 1 7 100) (demoArp_proper 1 7 100)

/-- A frame of 22 bytes of another type, with the operation of an ARP reply in it. -/
def demoStray : Arrival :=
  .ofList [255, 255, 255, 255, 255, 255, 2, 0, 0, 0, 0, 9, 0x99, 0x99, 0, 0, 0, 0, 0, 0, 0, 2]

/-- The stray frame puts the addresses of the frame before it into the ARP cache. -/
theorem stray_frame_uses_leftovers : getBe16 demoStray.data 12 = 0x9999 ∧
    (receiveAll demoNic demoRx [demoArp 1 7 50]).map (fun rx => (rx.arpCache 0).valid) =
      some false ∧
    (receiveAll demoNic demoRx [demoArp 1 8 50]).map (fun rx => (rx.arpCache 0).valid) =
      some false ∧
    (receiveAll demoNic demoRx [demoArp 1 7 50, demoStray]).map (fun rx =>
      ((rx.arpCache 0).valid, (rx.arpCache 0).ip, (rx.arpCache 0).mac)) =
      some (true, [10, 0, 0, 7], [2, 0, 0, 0, 0, 7]) ∧
    (receiveAll demoNic demoRx [demoArp 1 8 50, demoStray]).map (fun rx =>
      ((rx.arpCache 0).valid, (rx.arpCache 0).ip, (rx.arpCache 0).mac)) =
      some (true, [10, 0, 0, 8], [2, 0, 0, 0, 0, 8]) := by
  decide +kernel

end

end Kabanos
