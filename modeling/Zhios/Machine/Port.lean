import Mathlib.Tactic

/-! Port input and output. The devices behind the ports are a state that every
access may change; a device is described by what its accesses do to the predicates
on that state, never by a state of its own. -/
namespace Machine

/-- Byte and word reads and byte writes on numbered ports, over the devices' state. -/
structure Ports (σ : Type*) where
  insb : σ → ℕ → UInt8 × σ
  insw : σ → ℕ → UInt16 × σ
  outb : σ → ℕ → UInt8 → σ

namespace Ports
variable {σ : Type*} (p : Ports σ)

/-- Read `port` until `ready` accepts what is read. -/
def poll (port : ℕ) (ready : UInt8 → Bool) : (fuel : ℕ) → σ → Option σ
  | 0, _ => none
  | fuel + 1, s =>
    let r := p.insb s port
    if ready r.1 then some r.2 else poll port ready fuel r.2

def readWords (port : ℕ) : ℕ → σ → List UInt16 × σ
  | 0, s => ([], s)
  | n + 1, s =>
    let r := p.insw s port
    let rest := readWords port n r.2
    (r.1 :: rest.1, rest.2)

variable {p} {port : ℕ} {ready : UInt8 → Bool} {s t : σ}

theorem poll_succ (fuel : ℕ) : p.poll port ready (fuel + 1) s =
    if ready (p.insb s port).1 then some (p.insb s port).2 else p.poll port ready fuel (p.insb s port).2 := rfl

/-- More polls do not change what polling finds. -/
theorem poll_mono {fuel more : ℕ} (h : p.poll port ready fuel s = some t) (hle : fuel ≤ more) :
    p.poll port ready more s = some t := by
  induction fuel generalizing s more with
  | zero => cases h
  | succ fuel ih =>
    obtain ⟨more, rfl⟩ : ∃ m, more = m + 1 := ⟨more - 1, by omega⟩
    rw [poll_succ] at h ⊢
    split_ifs at h ⊢
    · exact h
    · exact ih h (by omega)

/-- Polling ends where the device comes nearer to being ready with every read. -/
theorem poll_ends {Busy : ℕ → σ → Prop} {Ready : σ → Prop}
    (hread : ∀ n s, Busy n s → if ready (p.insb s port).1 then Ready (p.insb s port).2
      else ∃ m < n, Busy m (p.insb s port).2) {n : ℕ} (h : Busy n s) :
    ∃ fuel t, p.poll port ready fuel s = some t ∧ Ready t := by
  induction n using Nat.strong_induction_on generalizing s with
  | _ n ih =>
    have hstep := hread n s h
    split_ifs at hstep with hready
    · exact ⟨1, _, by rw [poll_succ, if_pos hready], hstep⟩
    · obtain ⟨m, hlt, hbusy⟩ := hstep
      obtain ⟨fuel, t, hpoll, ht⟩ := ih m hlt hbusy
      exact ⟨fuel + 1, t, by rw [poll_succ, if_neg hready, hpoll], ht⟩

/-- Words read from a device that delivers `word i` in its `i`th state. -/
theorem readWords_eq {Data : ℕ → σ → Prop} {word : ℕ → UInt16} {len : ℕ}
    (hread : ∀ i < len, ∀ s, Data i s → (p.insw s port).1 = word i ∧ Data (i + 1) (p.insw s port).2)
    (n i : ℕ) (hlen : i + n ≤ len) (h : Data i s) :
    (p.readWords port n s).1 = (List.range' i n).map word ∧ Data (i + n) (p.readWords port n s).2 := by
  induction n generalizing i s with
  | zero => exact ⟨rfl, h⟩
  | succ n ih =>
    obtain ⟨hword, hnext⟩ := hread i (by omega) s h
    obtain ⟨hrest, hlast⟩ := ih (i + 1) (by omega) hnext
    rw [Nat.add_right_comm, Nat.add_assoc] at hlast
    constructor
    · rw [readWords, List.range'_succ, List.map_cons, hword, hrest]
    · exact hlast

end Ports

/-- The registers a command to a drive is made of. -/
structure TaskFile where
  drive : UInt8
  count : UInt8
  low : UInt8
  mid : UInt8
  high : UInt8

namespace TaskFile

/-- The sector addressed, in 28 bits. -/
def lba (f : TaskFile) : ℕ :=
  f.low.toNat + 2 ^ 8 * f.mid.toNat + 2 ^ 16 * f.high.toNat + 2 ^ 24 * (f.drive.toNat % 16)

/-- A count of 0 asks for 256 sectors. -/
def sectors (f : TaskFile) : ℕ := if f.count = 0 then 256 else f.count.toNat

/-- The first drive of the channel, addressed by sector numbers. -/
def SelectsFirst (f : TaskFile) : Prop := f.drive.toNat / 16 = 0xE

end TaskFile

/-- A drive on the primary channel that holds the words `sector lba i` and is read
by polling. Between commands it is `idle`, and its registers hold what was last
written to them. A read command makes it `busy` for a bounded number of status
reads before each sector, whose words it then hands out one by one (`data`). -/
structure Drive {σ : Type*} (p : Ports σ) (sector : ℕ → ℕ → UInt16) where
  idle : TaskFile → σ → Prop
  /-- Busy before sector `lba`, with `left` sectors to deliver, for at most `n` reads. -/
  busy : (lba left n : ℕ) → σ → Prop
  /-- Ready to deliver word `i` of sector `lba`, with `left` sectors to deliver. -/
  data : (lba left i : ℕ) → σ → Prop
  out_drive : ∀ f s v, idle f s → idle { f with drive := v } (p.outb s 0x1F6 v)
  out_count : ∀ f s v, idle f s → idle { f with count := v } (p.outb s 0x1F2 v)
  out_low : ∀ f s v, idle f s → idle { f with low := v } (p.outb s 0x1F3 v)
  out_mid : ∀ f s v, idle f s → idle { f with mid := v } (p.outb s 0x1F4 v)
  out_high : ∀ f s v, idle f s → idle { f with high := v } (p.outb s 0x1F5 v)
  out_read : ∀ f s, idle f s → f.SelectsFirst → ∃ n, busy f.lba f.sectors n (p.outb s 0x1F7 0x20)
  in_status : ∀ lba left n s, busy lba left n s →
    if (p.insb s 0x1F7).1 &&& 0x08 != 0 then data lba left 0 (p.insb s 0x1F7).2
    else ∃ m < n, busy lba left m (p.insb s 0x1F7).2
  in_word : ∀ lba left i s, i < 256 → data lba left i s →
    (p.insw s 0x1F0).1 = sector lba i ∧ data lba left (i + 1) (p.insw s 0x1F0).2
  /-- Behind the last word of a sector the drive turns to the next one, if any. -/
  next_sector : ∀ lba left s, data lba (left + 1) 256 s →
    if left = 0 then ∃ f, idle f s else ∃ n, busy (lba + 1) left n s

end Machine
