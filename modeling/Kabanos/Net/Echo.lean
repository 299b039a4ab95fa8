/-
  The reply to an echo request: `calculate_checksum` and `icmp_send_ping_reply`.

  The lengths come from the fields of the request.  Where these fit together and the reply
  fits in its buffer, the reply is well formed: its lengths agree, it brings back what was
  sent, and the receiver's sums over the IP header and over the ICMP message are 0xFFFF.
-/
import Kabanos.Lib.OnesComplement
import Kabanos.Net.OwnBytes

namespace Kabanos

/-! ## The checksum -/

section
variable {l : List UInt8}

theorem checksumSum_append (h : l.length % 2 = 0) (rest : List UInt8) :
    checksumSum (l ++ rest) = checksumSum l + checksumSum rest := by
  induction l using checksumSum.induct with
  | case1 => simp [checksumSum]
  | case2 a => simp at h
  | case3 a b l ih =>
    have hl : l.length % 2 = 0 := by
      simp only [List.length_cons] at h
      omega
    simp only [List.cons_append, checksumSum, ih hl]
    omega

theorem checksumSum_le (l : List UInt8) : checksumSum l ≤ 65535 * l.length := by
  induction l using checksumSum.induct with
  | case1 => simp [checksumSum]
  | case2 a =>
    have := a.toNat_lt
    simp only [checksumSum, List.length_singleton]
    omega
  | case3 a b l ih =>
    have := a.toNat_lt
    have := b.toNat_lt
    simp only [checksumSum, List.length_cons]
    omega

theorem checksumSum_netWords (l : List UInt8) :
    (256 * checksumSum l) % 65535 = (netWords l).sum % 65535 ∧
      (checksumSum l = 0 ↔ (netWords l).sum = 0) := by
  induction l using checksumSum.induct with
  | case1 => simp [checksumSum, netWords]
  | case2 a => simp [checksumSum, netWords]
  | case3 a b l ih =>
    simp only [checksumSum, netWords, List.sum_cons]
    omega

theorem foldCarry_spec {sum : ℕ} (h : sum < 2 ^ 32) :
    foldCarry 3 sum ≤ 65535 ∧ foldCarry 3 sum % 65535 = sum % 65535 ∧
      (foldCarry 3 sum = 0 ↔ sum = 0) := by
  simp only [foldCarry]
  split_ifs
  · omega
  · omega
  · omega
  · omega

theorem checksumSum_lt (h : l.length ≤ 65536) : checksumSum l < 2 ^ 32 := by
  have := checksumSum_le l
  omega

/-- **`calculate_checksum` returns 0** just for the texts with one's-complement sum 0xFFFF. -/
theorem calculateChecksum_eq_zero (h : l.length ≤ 65536) :
    calculateChecksum l = 0 ↔ onesSum (netWords l) = 65535 := by
  have hlt := checksumSum_lt h
  obtain ⟨h1, h2, h3⟩ := foldCarry_spec hlt
  obtain ⟨h4, h5⟩ := checksumSum_netWords l
  rw [onesSum_eq_full (netWords_le l), calculateChecksum, Nat.mod_eq_of_lt hlt]
  omega

theorem calculateChecksum_sealed {rest : List UInt8} (hl : l.length % 2 = 0)
    (hlen : (l ++ le16 0 ++ rest).length ≤ 65536) :
    calculateChecksum (l ++ le16 (calculateChecksum (l ++ le16 0 ++ rest)) ++ rest) = 0 := by
  have hsum : ∀ c < 65536, checksumSum (l ++ le16 c ++ rest) =
      checksumSum (l ++ le16 0 ++ rest) + c := by
    intro c hc
    have h2 : ∀ c, checksumSum (le16 c ++ rest) = c % 65536 + checksumSum rest := by
      intro c
      simp only [le16, List.cons_append, List.nil_append, checksumSum, UInt8.toNat_ofNat']
      omega
    simp only [List.append_assoc, checksumSum_append hl, h2]
    omega
  have hlt := checksumSum_lt hlen
  have hlt' : ∀ c, checksumSum (l ++ le16 c ++ rest) < 2 ^ 32 := fun c =>
    checksumSum_lt (by simpa [le16] using hlen)
  obtain ⟨h1, h2, h3⟩ := foldCarry_spec hlt
  set c := calculateChecksum (l ++ le16 0 ++ rest) with hc
  have hc' : c = 65535 - foldCarry 3 (checksumSum (l ++ le16 0 ++ rest)) := by
    rw [hc, calculateChecksum, Nat.mod_eq_of_lt hlt]
    omega
  obtain ⟨h4, h5, h6⟩ := foldCarry_spec (hlt' c)
  rw [calculateChecksum, Nat.mod_eq_of_lt (hlt' c)]
  rw [hsum c (by omega)] at h4 h5 h6 ⊢
  omega

end

/-! ## The layout of the reply -/

/-- The bytes of a frame, from offset 0 on. -/
def frame (bytes : List UInt8) : Buf := fun i => bytes.getD i 0

theorem getBytes_frame {a x bytes : List UInt8} {off n : ℕ} (h : a ++ x <+: bytes)
    (ha : a.length = off) (hx : x.length = n) : getBytes (frame bytes) off n = x := by
  obtain ⟨c, rfl⟩ := h
  subst ha hx
  apply List.ext_getElem
  · exact getBytes_length ..
  · intro i h1 h2
    simp [getBytes, frame, List.getElem?_append_right, List.getElem?_append_left h2,
      List.getElem?_eq_getElem h2]

theorem getBe16_frame {a bytes : List UInt8} {off v : ℕ} (h : a ++ be16 v <+: bytes)
    (ha : a.length = off) (hv : v < 65536) : getBe16 (frame bytes) off = v := by
  have e := getBytes_frame h ha rfl
  simp only [be16, List.length_cons, List.length_nil, getBytes, List.range_succ, List.range_zero,
    List.nil_append, List.cons_append, List.map_cons, List.map_nil, List.cons.injEq, and_true] at e
  rw [getBe16, ← Nat.add_zero off, e.1, Nat.add_assoc, e.2]
  simp only [UInt8.toNat_ofNat']
  omega

theorem getBytes_add (b : Buf) (off m n : ℕ) :
    getBytes b off (m + n) = getBytes b off m ++ getBytes b (off + m) n := by
  simp [getBytes, List.range_add, Function.comp_def, Nat.add_assoc]

/-- What an echo reply to the request `packet` is. -/
structure EchoReply (nic : Nic) (packet : Buf) (reply : List UInt8) : Prop where
  length : reply.length = 14 + (ipv4Header (frame reply)).totalLength
  header : (ipv4Header (frame reply)).length = 20
  icmp : (ipv4Header (frame reply)).totalLength - 20 =
    (ipv4Header packet).totalLength - (ipv4Header packet).length
  dstMac : getBytes (frame reply) 0 6 = getBytes packet 6 6
  srcMac : getBytes (frame reply) 6 6 = nic.mac
  srcIp : (ipv4Header (frame reply)).srcIp = (ipv4Header packet).dstIp
  dstIp : (ipv4Header (frame reply)).dstIp = (ipv4Header packet).srcIp
  type : getBytes (frame reply) 34 2 = [0, 0]
  identifier : getBytes (frame reply) 38 2 = getBytes packet (14 + (ipv4Header packet).length + 4) 2
  sequence : getBytes (frame reply) 40 2 = getBytes packet (14 + (ipv4Header packet).length + 6) 2
  payload : getBytes (frame reply) 42 (reply.length - 42) =
    getBytes packet (14 + (ipv4Header packet).length + 8) (reply.length - 42)
  ipSum : calculateChecksum (getBytes (frame reply) 14 20) = 0 ∧
    onesSum (netWords (getBytes (frame reply) 14 20)) = 65535
  icmpSum : calculateChecksum (getBytes (frame reply) 34 (reply.length - 34)) = 0 ∧
    onesSum (netWords (getBytes (frame reply) 34 (reply.length - 34))) = 65535

section
variable {nic : Nic} {b b' : Buf} {len : ℕ}

/-- The Ethernet header of the reply. -/
def echoEther (nic : Nic) (packet : Buf) : List UInt8 :=
  getBytes packet 6 6 ++ nic.mac ++ [0x08, 0x00]

/-- The IP header of the reply to a request with `t` bytes of data. -/
def echoIp (nic : Nic) (packet : Buf) (t : ℕ) : List UInt8 :=
  replyIpHeader nic (ipv4Header packet) (t + 8)
    (calculateChecksum (replyIpHeader nic (ipv4Header packet) (t + 8) 0))

/-- Identifier, sequence number and data of a request. -/
def echoBody (packet : Buf) (t : ℕ) : List UInt8 :=
  getBytes packet (14 + (ipv4Header packet).length + 4) (4 + t)

/-- The ICMP message of the reply. -/
def echoIcmp (packet : Buf) (t : ℕ) : List UInt8 :=
  replyIcmp (echoBody packet t) (calculateChecksum (replyIcmp (echoBody packet t) 0))

/-- The number of bytes of data of a request. -/
def echoData (packet : Buf) : ℕ := (ipv4Header packet).totalLength - (ipv4Header packet).length - 8

theorem EchoFits.pingReply (h : EchoFits b) : Kabanos.pingReply nic b =
      some (echoEther nic b ++ echoIp nic b (echoData b) ++ echoIcmp b (echoData b)) := by
  have h1 := h.icmp
  have h2 := h.reply
  have ht : ((ipv4Header b).totalLength + 2 ^ 32 - (ipv4Header b).length) % 2 ^ 32 =
      echoData b + 8 := by
    rw [h.total, echoData]
    omega
  simp only [Kabanos.pingReply, ht]
  rw [if_neg (by rw [echoData]; omega), show echoData b + 8 - 4 = 4 + echoData b by omega]
  rfl

variable (nic b) (t : ℕ)

@[simp] theorem echoEther_length : (echoEther nic b).length = 14 := by
  simp [echoEther, getBytes_length, nic.mac_length]

theorem replyIpHeader_length (c : ℕ) : (replyIpHeader nic (ipv4Header b) t c).length = 20 := by
  simp [replyIpHeader, be16, le16, nic.ip_length, ipv4Header, getBytes_length]

@[simp] theorem echoIp_length : (echoIp nic b t).length = 20 := replyIpHeader_length ..

theorem echoBody_length : (echoBody b t).length = 4 + t := getBytes_length ..

@[simp] theorem echoIcmp_length : (echoIcmp b t).length = 8 + t := by
  simp only [echoIcmp, replyIcmp, le16, List.length_append, List.length_cons, List.length_nil,
    echoBody_length]
  omega

theorem echoIp_sum : calculateChecksum (echoIp nic b t) = 0 := by
  have hlen := replyIpHeader_length nic b (t + 8) 0
  simp only [echoIp, replyIpHeader, List.append_assoc _ nic.ip] at hlen ⊢
  exact calculateChecksum_sealed (by simp [be16]) (by omega)

variable {t}

theorem echoIcmp_sum (ht : t ≤ 65528) : calculateChecksum (echoIcmp b t) = 0 := by
  refine calculateChecksum_sealed (by simp) ?_
  have := echoIcmp_length b t
  simp only [echoIcmp, replyIcmp, le16, List.length_append, List.length_cons, List.length_nil] at *
  omega

theorem echoBody_eq : echoBody b t = getBytes b (14 + (ipv4Header b).length + 4) 2 ++
    (getBytes b (14 + (ipv4Header b).length + 6) 2 ++
      getBytes b (14 + (ipv4Header b).length + 8) t) := by
  rw [echoBody, show 4 + t = 2 + (2 + t) by omega, getBytes_add, getBytes_add]

variable {nic b}

/-- **The three parts together are an echo reply.** -/
theorem EchoFits.reply_ok (h : EchoFits b) (hip : (ipv4Header b).dstIp = nic.ip) :
    EchoReply nic b (echoEther nic b ++ echoIp nic b (echoData b) ++ echoIcmp b (echoData b)) := by
  have h1 := h.icmp
  have h2 := h.reply
  obtain ⟨t, ht⟩ : ∃ t, (ipv4Header b).totalLength = (ipv4Header b).length + 8 + t :=
    Nat.exists_eq_add_of_le h1
  rw [show echoData b = t by rw [echoData]; omega]
  obtain ⟨r, hr⟩ : ∃ r, echoEther nic b ++ echoIp nic b t ++ echoIcmp b t = r := ⟨_, rfl⟩
  have hlen : r.length = 42 + t := by
    rw [← hr, List.length_append, List.length_append]
    simp
    omega
  have htotal : (ipv4Header (frame r)).totalLength = 20 + (t + 8) :=
    getBe16_frame (a := echoEther nic b ++ [0x45, 0]) (by simp [← hr, echoIp, replyIpHeader])
      (by simp) (by omega)
  have hIp : getBytes (frame r) 14 20 = echoIp nic b t :=
    getBytes_frame (a := echoEther nic b) (by simp [← hr]) (by simp) (by simp)
  have hIcmp : getBytes (frame r) 34 (r.length - 34) = echoIcmp b t :=
    getBytes_frame (a := echoEther nic b ++ echoIp nic b t) (by simp [← hr]) (by simp)
      (by simp; omega)
  have sumIp := echoIp_sum nic b t
  have sumIcmp := echoIcmp_sum b (show t ≤ 65528 by omega)
  rw [hr]
  refine ⟨?_, ?_, ?_, ?_, ?_, ?_, ?_, ?_, ?_, ?_, ?_, ?_, ?_⟩
  · omega
  · have hv : getBytes (frame r) 14 1 = [0x45] :=
      getBytes_frame (a := echoEther nic b) (by simp [← hr, echoIp, replyIpHeader]) (by simp) rfl
    have hv : frame r 14 = 0x45 := by simpa [getBytes] using hv
    simp [Ipv4Header.length, ipv4Header, hv]
  · omega
  · exact getBytes_frame (a := []) (by simp [← hr, echoEther]) rfl (getBytes_length ..)
  · exact getBytes_frame (a := getBytes b 6 6) (by simp [← hr, echoEther]) (getBytes_length ..)
      nic.mac_length
  · rw [hip]
    exact getBytes_frame (a := echoEther nic b ++ (echoIp nic b t).take 12)
      (by simp [← hr, echoIp, replyIpHeader, be16, le16]) (by simp) nic.ip_length
  · exact getBytes_frame (a := echoEther nic b ++ (echoIp nic b t).take 16)
      (by simp [← hr, echoIp, replyIpHeader, be16, le16, nic.ip_length]) (by simp)
      (getBytes_length ..)
  · exact getBytes_frame (a := echoEther nic b ++ echoIp nic b t)
      (by simp [← hr, echoIcmp, replyIcmp]) (by simp) rfl
  · exact getBytes_frame (a := echoEther nic b ++ echoIp nic b t ++ (echoIcmp b t).take 4)
      (by simp [← hr, echoIcmp, replyIcmp, le16, echoBody_eq]) (by simp; omega)
      (getBytes_length ..)
  · exact getBytes_frame (a := echoEther nic b ++ echoIp nic b t ++ (echoIcmp b t).take 6)
      (by simp [← hr, echoIcmp, replyIcmp, le16, echoBody_eq, getBytes_length])
      (by simp; omega) (getBytes_length ..)
  · refine getBytes_frame (a := echoEther nic b ++ echoIp nic b t ++ (echoIcmp b t).take 8) ?_
      (by simp) (getBytes_length ..)
    have hdrop : (echoIcmp b t).drop 8 = getBytes b (14 + (ipv4Header b).length + 8) t := by
      simp [echoIcmp, replyIcmp, le16, echoBody_eq, List.drop_append, getBytes_length]
    rw [hlen, Nat.add_sub_cancel_left, ← hdrop]
    simp [← hr]
  · rw [hIp]
    exact ⟨sumIp, (calculateChecksum_eq_zero (by simp)).1 sumIp⟩
  · rw [hIcmp]
    exact ⟨sumIcmp, (calculateChecksum_eq_zero (by simp; omega)).1 sumIcmp⟩

/-! ## What the reply reads and writes -/

/-- `icmp_total` and `icmp_data_len`, with the wrap-around of unsigned numbers -/
def icmpTotal (ip : Ipv4Header) : ℕ := (ip.totalLength + 2 ^ 32 - ip.length) % 2 ^ 32
def icmpDataLen (ip : Ipv4Header) : ℕ := (icmpTotal ip + 2 ^ 32 - 8) % 2 ^ 32

/-- The parts of the frame that `icmp_send_ping_reply` reads, with their offsets and lengths:
    the source MAC, `version_hl`, `total_length`, `src_ip`, identifier, sequence, data. -/
def pingReads (packet : Buf) : List (ℕ × ℕ) :=
  let ip := ipv4Header packet
  [(6, 6), (14, 1), (16, 2), (26, 4), (14 + ip.length + 4, 2), (14 + ip.length + 6, 2),
    (14 + ip.length + 8, icmpDataLen ip)]

/-- The parts of `reply` that it writes: the Ethernet header, the IP header, the ICMP header
    and the data. -/
def pingWrites (packet : Buf) : List (ℕ × ℕ) :=
  [(0, 6), (6, 6), (12, 2), (14, 20), (34, 8), (42, icmpDataLen (ipv4Header packet))]

/-- `icmp_send_ping_reply` stays in the frame and in its buffer, and what it sends depends on
    nothing but the frame. -/
structure PingSafe (nic : Nic) (packet : Buf) (packetLen : ℕ) : Prop where
  reads : ∀ r ∈ pingReads packet, r.1 + r.2 ≤ packetLen
  writes : ∀ w ∈ pingWrites packet, w.1 + w.2 ≤ 1500
  sends : ∃ reply, ∀ b', Agree packetLen packet b' → pingReply nic b' = some reply

/-- **Echo replies are memory safe** just if the frame has a whole IP header up to the source
    address, the IP packet holds an ICMP header and lies in the frame, and the reply fits. -/
theorem ping_safe_iff (nic : Nic) (packet : Buf) (packetLen : ℕ) : PingSafe nic packet packetLen ↔
      30 ≤ packetLen ∧ (ipv4Header packet).length + 8 ≤ (ipv4Header packet).totalLength ∧
        14 + (ipv4Header packet).totalLength ≤ packetLen ∧
        34 + ((ipv4Header packet).totalLength - (ipv4Header packet).length) ≤ 1500 := by
  have htl := totalLength_lt packet
  have hhl : (ipv4Header packet).length ≤ 60 := by
    simp only [Ipv4Header.length]
    omega
  constructor
  · rintro ⟨hr, hw, -⟩
    simp only [pingReads, pingWrites, icmpDataLen, icmpTotal, List.mem_cons, List.not_mem_nil,
      forall_eq_or_imp, or_false, forall_eq] at hr hw
    omega
  · rintro ⟨h1, h2, h3, h4⟩
    have hfit : EchoFits packet := ⟨h2, h4⟩
    refine ⟨?_, ?_, _, fun b' h => (pingReply_agree h h1 hfit h3).trans hfit.pingReply⟩
    · simp only [pingReads, icmpDataLen, icmpTotal, List.mem_cons, List.not_mem_nil,
        forall_eq_or_imp, or_false, forall_eq]
      omega
    · simp only [pingWrites, icmpDataLen, icmpTotal, List.mem_cons, List.not_mem_nil,
        forall_eq_or_imp, or_false, forall_eq]
      omega

/-- **Echo replies are well formed.** -/
theorem echo_reply_well_formed (nic : Nic) (n : Net) (packet : Buf) (packetLen : ℕ)
    (hreq : icmpIsPingRequest nic packet) (hlen : 20 ≤ (ipv4Header packet).length)
    (hroom : (ipv4Header packet).length + 8 ≤ (ipv4Header packet).totalLength)
    (hin : 14 + (ipv4Header packet).totalLength ≤ packetLen)
    (hfit : 34 + ((ipv4Header packet).totalLength - (ipv4Header packet).length) ≤ 1500) :
    ∃ reply, EchoReply nic packet reply ∧ icmpHandle nic packet n =
      some { n with sent := n.sent ++ [reply] } ∧
      ∀ b', Agree packetLen packet b' → pingReply nic b' = some reply := by
  have h : EchoFits packet := ⟨hroom, hfit⟩
  have hip : (ipv4Header packet).dstIp = nic.ip := by
    simp only [icmpIsPingRequest, Ipv4Header.isIcmpForUs, Bool.and_eq_true, beq_iff_eq] at hreq
    exact hreq.1.1.1
  refine ⟨_, h.reply_ok hip, ?_, fun b' hb => ?_⟩
  · rw [icmpHandle, if_pos hreq, h.pingReply, Option.map_some, rtl8139SendPacket, if_neg]
    simp only [List.length_append, echoEther_length, echoIp_length, echoIcmp_length, echoData]
    omega
  · exact (pingReply_agree hb (by omega) h hin).trans h.pingReply

/-- An echo request of `10.0.0.7` with the given total length and data. -/
def demoPing (total : UInt8) (data : List UInt8) : List UInt8 :=
  [2, 0, 0, 0, 0, 1, 2, 0, 0, 0, 0, 7, 0x08, 0x00] ++
    [0x45, 0, 0, total, 0, 1, 0, 0, 64, 1, 0, 0, 10, 0, 0, 7, 10, 0, 0, 100] ++
    [8, 0, 0, 0, 0x12, 0x34, 0, 1] ++ data

/-- A request with three bytes of data is answered. -/
theorem echo_reply_three_bytes :
    ∃ reply, EchoReply demoNic (frame (demoPing 31 [97, 98, 99])) reply ∧
      icmpHandle demoNic (frame (demoPing 31 [97, 98, 99])) demoRx.toNet =
        some { demoRx.toNet with sent := demoRx.sent ++ [reply] } ∧
      ∀ b', Agree 45 (frame (demoPing 31 [97, 98, 99])) b' → pingReply demoNic b' = some reply :=
  echo_reply_well_formed demoNic demoRx.toNet (frame (demoPing 31 [97, 98, 99])) 45 (by decide)
    (by decide) (by decide) (by decide) (by decide)

/-- A request of 42 bytes that claims one byte of data is answered with the byte that lies
    behind it in the buffer, and one that claims no room for its own header overruns `reply`. -/
theorem ping_trusts_total_length : icmpIsPingRequest demoNic (frame (demoPing 29 [])) ∧
    ¬ PingSafe demoNic (frame (demoPing 29 [])) 42 ∧
    (pingReply demoNic (frame (demoPing 29 [0x55]))).map (·.getD 42 0) = some 0x55 ∧
    (pingReply demoNic (frame (demoPing 29 [0xAA]))).map (·.getD 42 0) = some 0xAA ∧
    icmpIsPingRequest demoNic (frame (demoPing 20 [])) ∧
    pingReply demoNic (frame (demoPing 20 [])) = none := by
  refine ⟨by decide, fun h => ?_, by decide, by decide, by decide, by decide⟩
  have := h.reads (42, 1) (by decide)
  omega

end

end Kabanos
