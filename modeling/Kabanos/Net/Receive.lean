/-
  The receive path of the network: `rtl8139_isr_handler`, `net_socket_deliver` with its
  handlers for ARP and ICMP, and the ARP cache.

  A frame is copied into one static buffer, where the bytes behind it are those of earlier
  frames.  The handlers look at fixed places of that buffer.  An echo reply is built in a
  buffer of 1500 bytes on the stack; a reply that does not fit overwrites the stack, and the
  outcome is `none`.
-/
import Kabanos.Lib.Bytes

namespace Kabanos

/-- `n` bytes from offset `off` on. -/
def getBytes (b : Buf) (off n : ℕ) : List UInt8 := (List.range n).map fun k => b (off + k)

/-- A 16-bit number in network order -/
def be16 (v : ℕ) : List UInt8 := [UInt8.ofNat (v / 256), UInt8.ofNat v]

/-- A 16-bit number in memory -/
def le16 (v : ℕ) : List UInt8 := [UInt8.ofNat v, UInt8.ofNat (v / 256)]

/-- `ntohs` of the 16-bit field at offset `off` -/
def getBe16 (b : Buf) (off : ℕ) : ℕ := 256 * (b off).toNat + (b (off + 1)).toNat

abbrev etherTypeArp : ℕ := 0x0806

abbrev etherTypeIpv4 : ℕ := 0x0800

/-! ## The state of the network -/

/-- `rtl8139_mac` and `my_ip_address` -/
structure Nic where
  mac : List UInt8
  ip : List UInt8
  mac_length : mac.length = 6
  ip_length : ip.length = 4

/-- A card with the address `10.0.0.100`. -/
def demoNic : Nic := ⟨[2, 0, 0, 0, 0, 1], [10, 0, 0, 100], rfl, rfl⟩

structure ArpCacheEntry where
  ip : List UInt8
  mac : List UInt8
  valid : Bool

structure RxPacket where
  data : Buf
  len : ℕ
  arrivedTicks : ℕ

structure Socket where
  inUse : Bool
  boundProtocol : ℕ
  rxQueue : ℕ → RxPacket
  rxHead : ℕ
  rxTail : ℕ
  rxCount : ℕ

/-- The ARP cache, the sockets, and the packets sent so far. -/
structure Net where
  arpCache : ℕ → ArpCacheEntry
  arpCacheNext : ℕ
  sockets : ℕ → Socket
  sent : List (List UInt8)

abbrev maxSockets : ℕ := 16

abbrev arpCacheSize : ℕ := 16

def rtl8139SendPacket (n : Net) (data : List UInt8) : Net :=
  if data.length = 0 ∨ 1792 < data.length then n else { n with sent := n.sent ++ [data] }

/-! ## ARP -/

/-- `arp_packet_t`, without the fields that nothing reads -/
structure ArpPacket where
  operation : ℕ
  srcMac : List UInt8
  srcIp : List UInt8
  dstIp : List UInt8
  deriving DecidableEq

/-- The ARP packet behind the Ethernet header. -/
def arpPacket (packet : Buf) : ArpPacket where
  operation := getBe16 packet 20
  srcMac := getBytes packet 22 6
  srcIp := getBytes packet 28 4
  dstIp := getBytes packet 38 4

def arpCacheInsert (n : Net) (ip mac : List UInt8) : Net :=
  match (List.range arpCacheSize).find? fun i =>
    (n.arpCache i).valid && (n.arpCache i).ip == ip with
  | some i => { n with arpCache := Function.update n.arpCache i { n.arpCache i with mac := mac } }
  | none =>
    { n with
      arpCache := Function.update n.arpCache n.arpCacheNext ⟨ip, mac, true⟩
      arpCacheNext := (n.arpCacheNext + 1) % arpCacheSize }

def checkArpIsForUs (nic : Nic) (arp : ArpPacket) : Bool :=
  arp.operation == 1 && arp.dstIp == nic.ip

/-- The packet that `arp_send_reply` builds. -/
def arpReply (nic : Nic) (request : ArpPacket) : List UInt8 :=
  request.srcMac ++ nic.mac ++ [0x08, 0x06] ++ be16 1 ++ be16 etherTypeIpv4 ++ [6, 4] ++ be16 2 ++
    nic.mac ++ nic.ip ++ request.srcMac ++ request.srcIp

/-- `arp_handle`: whether the packet goes on to the sockets. -/
def arpHandle (nic : Nic) (arp : ArpPacket) (n : Net) : Net × Bool :=
  let n := if arp.operation = 2 then arpCacheInsert n arp.srcIp arp.srcMac else n
  if checkArpIsForUs nic arp then (rtl8139SendPacket n (arpReply nic arp), false) else (n, true)

/-! ## ICMP -/

/-- `ipv4_header_t`, without the fields that nothing reads -/
structure Ipv4Header where
  versionHl : ℕ
  totalLength : ℕ
  protocol : ℕ
  srcIp : List UInt8
  dstIp : List UInt8
  deriving DecidableEq

/-- The IP header behind the Ethernet header. -/
def ipv4Header (packet : Buf) : Ipv4Header where
  versionHl := (packet 14).toNat
  totalLength := getBe16 packet 16
  protocol := (packet 23).toNat
  srcIp := getBytes packet 26 4
  dstIp := getBytes packet 30 4

/-- `ip_header_length_size` -/
def Ipv4Header.length (ip : Ipv4Header) : ℕ := ip.versionHl % 16 * 4

def Ipv4Header.isIcmpForUs (nic : Nic) (ip : Ipv4Header) : Bool :=
  ip.dstIp == nic.ip && ip.protocol == 1

def icmpIsPingRequest (nic : Nic) (packet : Buf) : Bool :=
  let ip := ipv4Header packet
  ip.isIcmpForUs nic && packet (14 + ip.length) == 8 && packet (14 + ip.length + 1) == 0

/-- `calculate_checksum`: the sum of the 16-bit words. -/
def checksumSum : List UInt8 → ℕ
  | [] => 0
  | [a] => a.toNat
  | a :: b :: l => a.toNat + 256 * b.toNat + checksumSum l

/-- `calculate_checksum`: the loop that folds the carry; three rounds are enough for a sum
    of 32 bits. -/
def foldCarry : ℕ → ℕ → ℕ
  | 0, sum => sum
  | k + 1, sum => if sum / 65536 = 0 then sum else foldCarry k (sum % 65536 + sum / 65536)

def calculateChecksum (data : List UInt8) : ℕ :=
  65535 - foldCarry 3 (checksumSum data % 2 ^ 32) % 65536

/-- The IP header of an echo reply, with the given checksum. -/
def replyIpHeader (nic : Nic) (ip : Ipv4Header) (icmpTotal checksum : ℕ) : List UInt8 :=
  [0x45, 0] ++ be16 (20 + icmpTotal) ++ be16 0x1234 ++ [0, 0] ++ [128, 1] ++ le16 checksum ++
    nic.ip ++ ip.srcIp

/-- The ICMP part of an echo reply, with the given checksum; `body` are identifier, sequence
    number and data of the request. -/
def replyIcmp (body : List UInt8) (checksum : ℕ) : List UInt8 := [0, 0] ++ le16 checksum ++ body

/-- The packet that `icmp_send_ping_reply` builds. -/
def pingReply (nic : Nic) (packet : Buf) : Option (List UInt8) :=
  let ip := ipv4Header packet
  let icmpTotal := (ip.totalLength + 2 ^ 32 - ip.length) % 2 ^ 32
  if icmpTotal < 8 ∨ 1500 < 34 + icmpTotal then none
  else
    let body := getBytes packet (14 + ip.length + 4) (icmpTotal - 4)
    some (getBytes packet 6 6 ++ nic.mac ++ [0x08, 0x00] ++
      replyIpHeader nic ip icmpTotal (calculateChecksum (replyIpHeader nic ip icmpTotal 0)) ++
      replyIcmp body (calculateChecksum (replyIcmp body 0)))

def icmpHandle (nic : Nic) (packet : Buf) (n : Net) : Option Net :=
  if icmpIsPingRequest nic packet then (pingReply nic packet).map (rtl8139SendPacket n) else some n

/-! ## Delivery -/

/-- The body of the loop of `net_socket_deliver`. -/
def Socket.deliver (packet : Buf) (len ethertype ticks : ℕ) (s : Socket) : Socket :=
  if !s.inUse then s
  else if s.boundProtocol ≠ 0 ∧ s.boundProtocol ≠ ethertype then s
  else if 4 ≤ s.rxCount then s
  else
    let slot := s.rxQueue s.rxTail
    let copy := if len < 2048 then len else 2048
    { s with
      rxQueue := Function.update s.rxQueue s.rxTail
        { data := memcpy slot.data 0 packet 0 copy, len := copy, arrivedTicks := ticks }
      rxTail := (s.rxTail + 1) % 4
      rxCount := s.rxCount + 1 }

def netSocketDeliver (nic : Nic) (ticks : ℕ) (packet : Buf) (len : ℕ) (n : Net) : Option Net :=
  if len < 14 then some n
  else
    let ethertype := getBe16 packet 12
    let (n, goesOn) := arpHandle nic (arpPacket packet) n
    if !goesOn then some n
    else (icmpHandle nic packet n).map fun n =>
      { n with sockets := fun i =>
          if i < maxSockets then (n.sockets i).deliver packet len ethertype ticks else n.sockets i }

/-! ## The driver -/

/-- The network with the receive buffer of the driver. -/
structure Rx extends Net where
  receivedPacketBuffer : Buf
  receivedPacketLength : ℕ

/-- What the card has received: its bytes, and their number with the four of the CRC. -/
structure Arrival where
  data : Buf
  length : ℕ
  ticks : ℕ

/-- `rtl8139_receive_packet`: the buffer and the length of the frame, `0` if it is refused. -/
def rtl8139ReceivePacket (buffer : Buf) (bufferLen : ℕ) (a : Arrival) : Buf × ℕ :=
  if a.length < 4 then (buffer, 0)
  else if bufferLen < a.length - 4 then (buffer, 0)
  else (memcpy buffer 0 a.data 0 (a.length - 4), a.length - 4)

/-- `rtl8139_isr_handler`, for a received frame -/
def rtl8139IsrHandler (nic : Nic) (rx : Rx) (a : Arrival) : Option Rx :=
  let (buffer, len) := rtl8139ReceivePacket rx.receivedPacketBuffer 2048 a
  if 0 < len then
    (netSocketDeliver nic a.ticks buffer len rx.toNet).map fun n => ⟨n, buffer, len⟩
  else some ⟨rx.toNet, buffer, len⟩

/-- Any number of frames, one after the other. -/
def receiveAll (nic : Nic) (rx : Rx) (as : List Arrival) : Option Rx :=
  as.foldlM (rtl8139IsrHandler nic) rx

end Kabanos
