import Nachos.ByteBuffer

/-! The two headers of a message and their place in a packet (`network.h`, `post.h`): the
packet header, then the mail header, then the data. Both headers are three words. -/
namespace Nachos

open ByteBuffer

abbrev headerSize : ℕ := 12
abbrev maxWireSize : ℕ := 64
abbrev maxPacketSize : ℕ := maxWireSize - headerSize
abbrev maxMailSize : ℕ := maxPacketSize - headerSize

structure PacketHeader where
  toAddr : BitVec 32
  fromAddr : BitVec 32
  length : BitVec 32
  deriving DecidableEq, Repr, Inhabited

structure MailHeader where
  toBox : BitVec 32
  fromBox : BitVec 32
  length : BitVec 32
  deriving DecidableEq, Repr, Inhabited

def storeWords (b : Buffer) (x y z : BitVec 32) : Buffer :=
  overlay b 0 headerSize (ofWords fun i => if i = 0 then x else if i = 1 then y else z)

def PacketHeader.store (h : PacketHeader) (b : Buffer) : Buffer :=
  storeWords b h.toAddr h.fromAddr h.length

def PacketHeader.load (b : Buffer) : PacketHeader := ⟨wordAt b 0, wordAt b 1, wordAt b 2⟩

def MailHeader.store (h : MailHeader) (b : Buffer) : Buffer :=
  storeWords b h.toBox h.fromBox h.length

def MailHeader.load (b : Buffer) : MailHeader := ⟨wordAt b 0, wordAt b 1, wordAt b 2⟩

def pastHeader (b : Buffer) : Buffer := fun j => b (headerSize + j)

def bytes (b : Buffer) (n : ℕ) : List (BitVec 8) := (List.range n).map b

/-- What one message says, whatever buffer it is in. -/
structure Message where
  pktHdr : PacketHeader
  mailHdr : MailHeader
  data : List (BitVec 8)
  deriving DecidableEq, Repr

def unwrap (pktHdr : PacketHeader) (b : Buffer) : Message :=
  ⟨pktHdr, MailHeader.load b, bytes (pastHeader b) (MailHeader.load b).length.toNat⟩

def unwire (b : Buffer) : Message := unwrap (PacketHeader.load b) (pastHeader b)

theorem wordAt_storeWords (b : Buffer) (x y z : BitVec 32) {i : ℕ} (hi : i < 3) :
    wordAt (storeWords b x y z) i = if i = 0 then x else if i = 1 then y else z := by
  rw [← wordAt_ofWords (fun i => if i = 0 then x else if i = 1 then y else z) i]
  refine wordAt_congr fun j hj hj' => ?_
  rw [storeWords, overlay_in (Nat.zero_le j) (by simp only [headerSize]; omega), Nat.sub_zero]

theorem wordAt_eq_of_header {b b' : Buffer} (h : ∀ j < headerSize, b j = b' j) {i : ℕ}
    (hi : i < 3) : wordAt b i = wordAt b' i := by
  refine wordAt_congr fun j _ hj => h j ?_
  simp only [headerSize]
  omega

theorem PacketHeader.load_congr {b b' : Buffer} (h : ∀ j < headerSize, b j = b' j) :
    PacketHeader.load b = PacketHeader.load b' := by
  simp only [PacketHeader.load, wordAt_eq_of_header h (by omega : 0 < 3),
    wordAt_eq_of_header h (by omega : 1 < 3), wordAt_eq_of_header h (by omega : 2 < 3)]

theorem MailHeader.load_congr {b b' : Buffer} (h : ∀ j < headerSize, b j = b' j) :
    MailHeader.load b = MailHeader.load b' := by
  simp only [MailHeader.load, wordAt_eq_of_header h (by omega : 0 < 3),
    wordAt_eq_of_header h (by omega : 1 < 3), wordAt_eq_of_header h (by omega : 2 < 3)]

theorem PacketHeader.load_store (h : PacketHeader) (b : Buffer) :
    PacketHeader.load (h.store b) = h := by
  simp [PacketHeader.load, PacketHeader.store, wordAt_storeWords]

theorem MailHeader.load_store (h : MailHeader) (b : Buffer) :
    MailHeader.load (h.store b) = h := by
  simp [MailHeader.load, MailHeader.store, wordAt_storeWords]

theorem bytes_congr {b b' : Buffer} {n : ℕ} (h : ∀ j < n, b j = b' j) : bytes b n = bytes b' n :=
  List.map_congr_left fun j hj => h j (List.mem_range.mp hj)

theorem unwrap_congr {b b' : Buffer} (p : PacketHeader)
    (h : ∀ j < headerSize + (MailHeader.load b).length.toNat, b' j = b j) :
    unwrap p b' = unwrap p b := by
  have hload : MailHeader.load b' = MailHeader.load b :=
    MailHeader.load_congr fun j hj => h j (by omega)
  rw [unwrap, unwrap, hload]
  congr 1
  exact bytes_congr fun j hj => h (headerSize + j) (by omega)

theorem unwrap_sent (p : PacketHeader) (h : MailHeader) (junk data : Buffer) :
    unwrap p (overlay (h.store junk) headerSize h.length.toNat data) =
      ⟨p, h, bytes data h.length.toNat⟩ := by
  have hload : MailHeader.load (overlay (h.store junk) headerSize h.length.toNat data) = h := by
    rw [← MailHeader.load_store h junk]
    refine MailHeader.load_congr fun j hj => ?_
    rw [MailHeader.load_store]
    exact overlay_out (.inl hj)
  rw [unwrap, hload]
  congr 1
  refine bytes_congr fun j hj => ?_
  rw [pastHeader, overlay_in (by omega) (by omega), Nat.add_sub_cancel_left]

theorem unwire_sent (p : PacketHeader) (junk b : Buffer)
    (hlen : p.length.toNat = headerSize + (MailHeader.load b).length.toNat) :
    unwire (overlay (p.store junk) headerSize p.length.toNat b) = unwrap p b := by
  have hload : PacketHeader.load (overlay (p.store junk) headerSize p.length.toNat b) = p := by
    rw [← PacketHeader.load_store p junk]
    refine PacketHeader.load_congr fun j hj => ?_
    rw [PacketHeader.load_store]
    exact overlay_out (.inl hj)
  rw [unwire, hload]
  refine unwrap_congr p fun j hj => ?_
  rw [pastHeader, overlay_in (by omega) (by omega), Nat.add_sub_cancel_left]

theorem unwrap_copied (p : PacketHeader) (b b' : Buffer)
    (hlen : p.length.toNat = headerSize + (MailHeader.load b).length.toNat) :
    unwrap p (overlay b' 0 p.length.toNat b) = unwrap p b := by
  refine unwrap_congr p fun j hj => ?_
  rw [overlay_in (Nat.zero_le j) (by omega), Nat.sub_zero]

end Nachos
