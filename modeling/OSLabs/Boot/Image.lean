import OSLabs.Boot.Loading

/-! # Loading an image

The loader follows the program headers in its copy of the image's beginning. Only the sector
of an empty segment can reach this copy; if it changes nothing there that is read again, the
table that the loader follows is the one in the file. What a segment's memory holds in the
end is what the last sectors read for its addresses brought.
-/

namespace OSLabs.Boot

variable {drives : Drives} {mem : Memory} {c : Format} {stack : Nat}

/-! ## The image -/

/-- The bytes of the image, which starts behind the boot sector and the argument area. -/
def file (drives : Drives) : Nat → UInt8 :=
  fun k => drives 0 (SECTSIZE + ARGSIZE + k)

def segments (c : Format) (drives : Drives) : List Phdr :=
  (List.range (c.e_phnum.read (file drives) 0)).map fun i =>
    phdrAt c (file drives) (c.e_phoff.read (file drives) 0 + i * c.phdrSize)

/-- The images that the loader is meant for. -/
structure WellFormed (c : Format) (drives : Drives) : Prop where
  table : c.e_phoff.read (file drives) 0 + c.e_phnum.read (file drives) 0 * c.phdrSize ≤ 4096
  low : ∀ p ∈ segments c drives, p.Low
  congruent : ∀ p ∈ segments c drives, p.paddr % SECTSIZE = p.offset % SECTSIZE
  apart : (segments c drives).Pairwise fun p q => ∀ a, ¬ (p.Range a ∧ q.Range a)
  offHeader : ∀ p ∈ segments c drives, ∀ a, p.Range a → ¬ (elfAddr ≤ a ∧ a < elfAddr + 4096)

/-- Every segment is in memory: its bytes of the file, and zeros behind them. -/
def Loaded (c : Format) (drives : Drives) (mem : Memory) : Prop :=
  ∀ p ∈ segments c drives,
    (∀ k < p.filesz, mem (p.paddr + k) = file drives (p.offset + k)) ∧
    ∀ a, p.paddr + p.filesz ≤ a → a < p.paddr + p.memsz → mem a = 0

/-- The byte that an address of a segment is to hold. -/
def wanted (drives : Drives) (p : Phdr) (a : Nat) : UInt8 :=
  if a < p.paddr + p.filesz then file drives (p.offset + (a - p.paddr)) else 0

/-- The sectors read for a segment have its bytes where they belong, and where sectors that
are read later reach into a segment, the last ones have there what the segment is to hold. -/
structure Undisturbed (drives : Drives) (ps : List Phdr) : Prop where
  own : ∀ before p rest, ps = before ++ p :: rest → ∀ a, p.Data a →
    (∀ q ∈ rest, ¬ q.Sectors a) → p.brought drives a = wanted drives p a
  later : ∀ before p mid q last, ps = before ++ p :: (mid ++ q :: last) → ∀ a, p.Range a →
    q.Sectors a → (∀ r ∈ last, ¬ r.Sectors a) → q.brought drives a = wanted drives p a

/-- A byte of the header copy that is read when `i` segments have been loaded: of the number
of headers, or of a header that is still to come. -/
def InUse (c : Format) (drives : Drives) (i k : Nat) : Prop :=
  (c.e_phnum.pos ≤ k ∧ k < c.e_phnum.pos + c.e_phnum.width) ∨
    (c.e_phoff.read (file drives) 0 + i * c.phdrSize ≤ k ∧
      k < c.e_phoff.read (file drives) 0 + c.e_phnum.read (file drives) 0 * c.phdrSize)

/-- No segment brings another byte to a place in the header copy that is read after it. -/
def HeaderKept (c : Format) (drives : Drives) : Prop :=
  ∀ before p rest, segments c drives = before ++ p :: rest →
    ∀ k, InUse c drives (before.length + 1) k → p.Sectors (elfAddr + k) →
      p.brought drives (elfAddr + k) = file drives k

/-- No segment is loaded over the loader's code or stack. -/
def OwnKept (stack : Nat) (ps : List Phdr) : Prop :=
  ∀ p ∈ ps, ∀ a, p.Stores a → ¬ (byteDisk stack).Own a

/-- The loader comes to its end, and then the segments are in memory. -/
def Loads (stack : Nat) (c : Format) (drives : Drives) (mem : Memory) : Prop :=
  ∃ mem', (byteDisk stack).loadElf c elfAddr mem drives = some (mem', drives) ∧
    Loaded c drives mem'

/-! ## Sectors of the image -/

theorem sectorByte_low {sect : Nat} (h : sect < 0x10000000) (i : Nat) :
    sectorByte drives sect i = drives 0 (sect * SECTSIZE + i) := by
  unfold sectorByte
  rw [Nat.div_eq_of_lt h, Nat.mod_eq_of_lt h]

theorem firstSector_natCast {offset : Nat} (h : offset < 0x80000000) :
    firstSector (int (uint32 offset)) = offset / 512 + 3 := by
  have hint : int (uint32 offset) = offset := by
    unfold uint32
    rw [Nat.mod_eq_of_lt (by omega)]
    exact int_eq (by omega) (by omega)
  unfold firstSector SECTSIZE ARGSIZE
  rw [hint, Int.tdiv_eq_ediv_of_nonneg (by omega)]
  omega

/-- For a file offset below `2 ^ 31` the own sectors of a segment bring its bytes. -/
theorem brought_eq_file {p : Phdr} (hlow : p.Low) (hoffset : p.offset < 0x80000000)
    (hcong : p.paddr % SECTSIZE = p.offset % SECTSIZE) {a : Nat} (ha : p.Data a) :
    p.brought drives a = wanted drives p a := by
  have hle := hlow.filesz_le
  have haddr := hlow.addr_le
  rcases ha with ⟨hfrom, hto⟩
  unfold SECTSIZE at hcong
  unfold wanted Phdr.brought
  have hsmall : p.offset / 512 + 3 + (a - sectorStart p.paddr) / 512 < 0x10000000 := by
    unfold sectorStart SECTSIZE
    omega
  have hsector : uint32 (p.offset / 512 + 3 + (a - sectorStart p.paddr) / 512) =
      p.offset / 512 + 3 + (a - sectorStart p.paddr) / 512 := Nat.mod_eq_of_lt (by omega)
  rw [if_pos hto, firstSector_natCast hoffset]
  unfold file SECTSIZE ARGSIZE
  rw [hsector, sectorByte_low hsmall]
  unfold sectorStart SECTSIZE
  exact congrArg (drives 0) (by omega)

/-! ## The table in memory -/

theorem readLE_congr {m₁ m₂ : Memory} {a b n : Nat} (h : ∀ k < n, m₁ (a + k) = m₂ (b + k)) :
    readLE m₁ a n = readLE m₂ b n := by
  induction n generalizing a b with
  | zero => rfl
  | succ n ih =>
      have hfirst := h 0 (by omega)
      rw [readLE, readLE, show m₁ a = m₂ b from hfirst, ih]
      intro k hk
      have hnext := h (k + 1) (by omega)
      rwa [Nat.add_comm k 1, ← Nat.add_assoc, ← Nat.add_assoc] at hnext

/-- The beginning of the image is at `0x8000`. -/
def Header (drives : Drives) (mem : Memory) : Prop :=
  ∀ k < 4096, mem (elfAddr + k) = file drives k

/-- The part of it that is in use when `i` segments have been loaded. -/
def HeaderFrom (c : Format) (drives : Drives) (i : Nat) (mem : Memory) : Prop :=
  ∀ k, InUse c drives i k → mem (elfAddr + k) = file drives k

theorem at32_eq {a : Nat} (ha : a < 0x100000000) : at32 mem a = mem a :=
  congrArg mem (Nat.mod_eq_of_lt ha)

section Table

variable (hwf : WellFormed c drives)
include hwf

theorem InUse.lt {i k : Nat} (h : InUse c drives i k) : k < 4096 := by
  have htable := hwf.table
  have hfield : c.e_phnum.pos + c.e_phnum.width ≤ 4096 := by cases c <;> decide
  unfold InUse at h
  omega

theorem HeaderFrom.read {i base : Nat} (h : HeaderFrom c drives i mem) (f : Field)
    (huse : ∀ k < f.width, InUse c drives i (base + f.pos + k)) :
    f.read (at32 mem) (elfAddr + base) = f.read (file drives) base := by
  unfold Field.read
  apply readLE_congr
  intro k hk
  have hlt := (huse k hk).lt hwf
  rw [at32_eq (by unfold elfAddr; omega), Nat.add_assoc, Nat.add_assoc, ← Nat.add_assoc base]
  exact h _ (huse k hk)

theorem HeaderFrom.phnum {i : Nat} (h : HeaderFrom c drives i mem) :
    c.e_phnum.read (at32 mem) elfAddr = c.e_phnum.read (file drives) 0 := by
  have hread : c.e_phnum.read (at32 mem) (elfAddr + 0) = c.e_phnum.read (file drives) 0 :=
    h.read hwf c.e_phnum fun k hk => .inl (by omega)
  exact hread

theorem HeaderFrom.phdrAt {i : Nat} (h : HeaderFrom c drives i mem)
    (hi : i < c.e_phnum.read (file drives) 0) :
    phdrAt c (at32 mem) (elfAddr + (c.e_phoff.read (file drives) 0 + i * c.phdrSize)) =
      phdrAt c (file drives) (c.e_phoff.read (file drives) 0 + i * c.phdrSize) := by
  have hend : i * c.phdrSize + c.phdrSize ≤ c.e_phnum.read (file drives) 0 * c.phdrSize := by
    rw [← Nat.succ_mul]
    exact Nat.mul_le_mul_right _ hi
  have hread (f : Field) (hfit : f.pos + f.width ≤ c.phdrSize) :
      f.read (at32 mem) (elfAddr + (c.e_phoff.read (file drives) 0 + i * c.phdrSize)) =
        f.read (file drives) (c.e_phoff.read (file drives) 0 + i * c.phdrSize) :=
    h.read hwf f fun k hk => .inr (by omega)
  unfold Boot.phdrAt
  rw [hread _ (by cases c <;> decide), hread _ (by cases c <;> decide),
    hread _ (by cases c <;> decide), hread _ (by cases c <;> decide)]

/-- What is still in use of the header copy survives the load of a segment. -/
theorem HeaderFrom.loaded {before rest : List Phdr} {p : Phdr}
    (h : HeaderFrom c drives before.length mem) (hkept : HeaderKept c drives)
    (hps : segments c drives = before ++ p :: rest) :
    HeaderFrom c drives (before.length + 1) (segmentLoaded drives mem p) := by
  intro k huse
  have hlt := huse.lt hwf
  have hp : p ∈ segments c drives := by
    rw [hps]
    exact List.mem_append_right before List.mem_cons_self
  have hbss : ¬ p.Bss (elfAddr + k) := by
    intro hbss
    unfold Phdr.Bss at hbss
    exact hwf.offHeader p hp (elfAddr + k) (by unfold Phdr.Range; omega) (by omega)
  unfold segmentLoaded
  rw [if_neg hbss]
  by_cases hsectors : p.Sectors (elfAddr + k)
  · rw [if_pos hsectors]
    exact hkept before p rest hps k huse hsectors
  · rw [if_neg hsectors]
    refine h k ?_
    unfold InUse at huse ⊢
    rw [Nat.succ_mul] at huse
    omega

end Table

theorem segments_split {before rest : List Phdr} {p : Phdr}
    (hps : segments c drives = before ++ p :: rest) :
    before.length < c.e_phnum.read (file drives) 0 ∧
      p = phdrAt c (file drives)
        (c.e_phoff.read (file drives) 0 + before.length * c.phdrSize) := by
  have hget : (segments c drives)[before.length]? = some p := by
    rw [hps, List.getElem?_append_right (Nat.le_refl _), Nat.sub_self]
    rfl
  unfold segments at hget
  rw [List.getElem?_map, Option.map_eq_some_iff] at hget
  obtain ⟨i, hi, rfl⟩ := hget
  obtain ⟨hlt, hi⟩ := List.getElem?_eq_some_iff.1 hi
  rw [List.getElem_range] at hi
  rw [List.length_range] at hlt
  subst hi
  exact ⟨hlt, rfl⟩

theorem segments_length (c : Format) (drives : Drives) :
    (segments c drives).length = c.e_phnum.read (file drives) 0 := by
  rw [segments, List.length_map, List.length_range]

section Loop

variable (hwf : WellFormed c drives) (hkept : HeaderKept c drives)
include hwf

theorem loadLoop_cons {fuel ph : Nat} {before rest : List Phdr} {p : Phdr}
    (h : HeaderFrom c drives before.length mem) (hps : segments c drives = before ++ p :: rest)
    (hph : ph = elfAddr + (c.e_phoff.read (file drives) 0 + before.length * c.phdrSize)) :
    (byteDisk stack).loadLoop c elfAddr (fuel + 1) before.length ph mem drives = (do
      let (mem, s) ← (byteDisk stack).loadSegment p mem drives
      (byteDisk stack).loadLoop c elfAddr fuel (before.length + 1) (ph + c.phdrSize) mem s) := by
  obtain ⟨hlt, hp⟩ := segments_split hps
  rw [Loader.loadLoop, h.phnum hwf, if_pos hlt, hph, h.phdrAt hwf hlt, ← hp]

include hkept

theorem loadLoop_kept {fuel ph : Nat} {before rest : List Phdr}
    (h : HeaderFrom c drives before.length mem) (hps : segments c drives = before ++ rest)
    (hph : ph = elfAddr + (c.e_phoff.read (file drives) 0 + before.length * c.phdrSize))
    (hfuel : rest.length ≤ fuel) (hown : OwnKept stack rest) :
    (byteDisk stack).loadLoop c elfAddr fuel before.length ph mem drives =
      some (loadAll drives mem rest, drives) := by
  induction rest generalizing before fuel ph mem with
  | nil =>
      cases fuel with
      | zero => rfl
      | succ fuel =>
          have hall := segments_length c drives
          rw [hps, List.append_nil] at hall
          rw [Loader.loadLoop, h.phnum hwf, if_neg (by omega)]
          rfl
  | cons p rest ih =>
      obtain ⟨fuel, rfl⟩ : ∃ n, fuel = n + 1 := ⟨fuel - 1, by simp at hfuel; omega⟩
      have hp : p ∈ segments c drives := by
        rw [hps]
        exact List.mem_append_right before List.mem_cons_self
      rw [loadLoop_cons hwf h hps hph, loadSegment_kept (hwf.low p hp) (hown p List.mem_cons_self)]
      have hsplit : segments c drives = (before ++ [p]) ++ rest := by
        rw [hps, List.append_assoc, List.singleton_append]
      have hlength : (before ++ [p]).length = before.length + 1 := by simp
      have hheader := h.loaded hwf hkept hps
      rw [← hlength] at hheader
      have hnext : ph + c.phdrSize =
          elfAddr + (c.e_phoff.read (file drives) 0 + (before ++ [p]).length * c.phdrSize) := by
        rw [hlength, Nat.succ_mul]
        omega
      have hrest := ih hheader hsplit hnext (Nat.le_of_succ_le_succ hfuel)
        fun q hq => hown q (List.mem_cons_of_mem p hq)
      rwa [hlength] at hrest

theorem loadLoop_hits {fuel ph : Nat} {before rest : List Phdr}
    (h : HeaderFrom c drives before.length mem) (hps : segments c drives = before ++ rest)
    (hph : ph = elfAddr + (c.e_phoff.read (file drives) 0 + before.length * c.phdrSize))
    (hfuel : rest.length ≤ fuel) (hown : ¬ OwnKept stack rest) :
    (byteDisk stack).loadLoop c elfAddr fuel before.length ph mem drives = none := by
  induction rest generalizing before fuel ph mem with
  | nil => exact absurd (by simp [OwnKept]) hown
  | cons p rest ih =>
      obtain ⟨fuel, rfl⟩ : ∃ n, fuel = n + 1 := ⟨fuel - 1, by simp at hfuel; omega⟩
      have hp : p ∈ segments c drives := by
        rw [hps]
        exact List.mem_append_right before List.mem_cons_self
      rw [loadLoop_cons hwf h hps hph]
      by_cases hfirst : ∃ a, p.Stores a ∧ (byteDisk stack).Own a
      · rw [loadSegment_hits (hwf.low p hp) hfirst]
        rfl
      · rw [loadSegment_kept (hwf.low p hp) fun a ha hown => hfirst ⟨a, ha, hown⟩]
        have hsplit : segments c drives = (before ++ [p]) ++ rest := by
          rw [hps, List.append_assoc, List.singleton_append]
        have hlength : (before ++ [p]).length = before.length + 1 := by simp
        have hlater : ¬ OwnKept stack rest := fun hrest => hown (List.forall_mem_cons.2
          ⟨fun a ha hown => hfirst ⟨a, ha, hown⟩, hrest⟩)
        have hheader := h.loaded hwf hkept hps
        rw [← hlength] at hheader
        have hnext : ph + c.phdrSize =
            elfAddr + (c.e_phoff.read (file drives) 0 + (before ++ [p]).length * c.phdrSize) := by
          rw [hlength, Nat.succ_mul]
          omega
        have hrest := ih hheader hsplit hnext (Nat.le_of_succ_le_succ hfuel) hlater
        rwa [hlength] at hrest

end Loop

theorem readLE_two_lt (mem : Memory) (a : Nat) : readLE mem a 2 < 0x10000 := by
  have hlow := UInt8.toNat_lt (mem a)
  have hhigh := UInt8.toNat_lt (mem (a + 1))
  simp only [readLE]
  omega

theorem segments_length_lt : (segments c drives).length < 0x10000 := by
  rw [segments_length]
  cases c
  · exact readLE_two_lt _ _
  · exact readLE_two_lt _ _

section Elf

variable (hwf : WellFormed c drives) (hkept : HeaderKept c drives) (header : Header drives mem)
include hwf header

theorem Header.headerFrom : HeaderFrom c drives 0 mem :=
  fun k huse => header k (huse.lt hwf)

theorem loadElf_eq : (byteDisk stack).loadElf c elfAddr mem drives =
    (byteDisk stack).loadLoop c elfAddr 0x10000 ([] : List Phdr).length
      (elfAddr + (c.e_phoff.read (file drives) 0 + ([] : List Phdr).length * c.phdrSize)) mem
        drives := by
  have hoff : c.e_phoff.read (at32 mem) elfAddr = c.e_phoff.read (file drives) 0 := by
    have hfield : c.e_phoff.pos + c.e_phoff.width ≤ 4096 := by cases c <;> decide
    unfold Field.read
    apply readLE_congr
    intro k hk
    rw [at32_eq (by unfold elfAddr; omega), Nat.add_assoc, Nat.zero_add]
    exact header _ (by omega)
  rw [Loader.loadElf, hoff, List.length_nil, Nat.zero_mul, Nat.add_zero]

include hkept

/-- The loader loads the segments of the image, one after the other. -/
theorem loadElf_kept (hown : OwnKept stack (segments c drives)) :
    (byteDisk stack).loadElf c elfAddr mem drives =
      some (loadAll drives mem (segments c drives), drives) := by
  rw [loadElf_eq hwf header]
  exact loadLoop_kept hwf hkept (header.headerFrom hwf) rfl rfl
    (Nat.le_of_lt segments_length_lt) hown

theorem loadElf_hits (hown : ¬ OwnKept stack (segments c drives)) :
    (byteDisk stack).loadElf c elfAddr mem drives = none := by
  rw [loadElf_eq hwf header]
  exact loadLoop_hits hwf hkept (header.headerFrom hwf) rfl rfl
    (Nat.le_of_lt segments_length_lt) hown

end Elf

/-! ## What the segments hold in the end -/

theorem not_bss_of_apart {before rest : List Phdr} {p : Phdr} {a : Nat}
    (hapart : (before ++ p :: rest).Pairwise fun p q => ∀ a, ¬ (p.Range a ∧ q.Range a))
    (ha : p.Range a) :
    ∀ r ∈ rest, ¬ r.Bss a := by
  intro r hr hbss
  have hp := (List.pairwise_cons.1 (List.pairwise_append.1 hapart).2.1).1 r hr
  unfold Phdr.Bss at hbss
  exact hp a ⟨ha, by unfold Phdr.Range; omega⟩

theorem loadAll_later {before mid last : List Phdr} {p q : Phdr} {a : Nat}
    (hapart : (before ++ p :: (mid ++ q :: last)).Pairwise fun p q =>
      ∀ a, ¬ (p.Range a ∧ q.Range a))
    (ha : p.Range a) (hq : q.Sectors a) (hlast : ∀ r ∈ last, ¬ r.Sectors a) :
    loadAll drives mem (before ++ p :: (mid ++ q :: last)) a = q.brought drives a := by
  have hbss := not_bss_of_apart hapart ha
  have hsplit : before ++ p :: (mid ++ q :: last) = (before ++ p :: mid) ++ q :: last := by
    rw [List.append_assoc, List.cons_append]
  rw [hsplit]
  exact loadAll_last (fun r hr => hbss r (List.mem_append_right mid hr)) hq hlast

theorem loadAll_own {before rest : List Phdr} {p : Phdr} {a : Nat} (hp : p.Low)
    (hapart : (before ++ p :: rest).Pairwise fun p q => ∀ a, ¬ (p.Range a ∧ q.Range a))
    (ha : p.Range a) (hrest : ∀ r ∈ rest, ¬ r.Sectors a) :
    loadAll drives mem (before ++ p :: rest) a =
      if p.Bss a then 0 else p.brought drives a := by
  rw [loadAll_append, loadAll_cons, loadAll_unchanged (not_bss_of_apart hapart ha) hrest,
    segmentLoaded]
  by_cases hbss : p.Bss a
  · rw [if_pos hbss, if_pos hbss]
  · have hdata : p.Data a := by
      unfold Phdr.Bss at hbss
      unfold Phdr.Range at ha
      unfold Phdr.Data
      omega
    rw [if_neg hbss, if_neg hbss, if_pos (hdata.sectors hp)]

/-- A segment is loaded when each address of it holds the byte wanted there. -/
theorem loaded_iff_wanted {c : Format} (hwf : WellFormed c drives) :
    Loaded c drives mem ↔
      ∀ p ∈ segments c drives, ∀ a, p.Range a → mem a = wanted drives p a := by
  constructor
  · intro h p hp a ha
    unfold wanted
    unfold Phdr.Range at ha
    by_cases hdata : a < p.paddr + p.filesz
    · have hbyte := (h p hp).1 (a - p.paddr) (by omega)
      rw [Nat.add_sub_cancel' ha.1] at hbyte
      rwa [if_pos hdata]
    · rw [if_neg hdata]
      exact (h p hp).2 a (by omega) ha.2
  · intro h p hp
    have hle := (hwf.low p hp).filesz_le
    constructor
    · intro k hk
      rw [h p hp (p.paddr + k) (by unfold Phdr.Range; omega), wanted, if_pos (by omega),
        Nat.add_sub_cancel_left]
    · intro a hfrom hto
      rw [h p hp a (by unfold Phdr.Range; omega), wanted, if_neg (by omega)]

/-- The loads of all segments leave each of them in memory if and only if the sectors read for
one put no wrong byte into another. -/
theorem loadAll_loaded_iff (hwf : WellFormed c drives) :
    Loaded c drives (loadAll drives mem (segments c drives)) ↔
      Undisturbed drives (segments c drives) := by
  have hapart := hwf.apart
  rw [loaded_iff_wanted hwf]
  constructor
  · intro h
    constructor
    · intro before p rest hps a ha hrest
      have hmem : p ∈ segments c drives := by
        rw [hps]
        exact List.mem_append_right before List.mem_cons_self
      have hle := (hwf.low p hmem).filesz_le
      unfold Phdr.Data at ha
      have hrange : p.Range a := by
        unfold Phdr.Range
        omega
      have hnot : ¬ p.Bss a := by
        unfold Phdr.Bss
        omega
      have hwanted := h p hmem a hrange
      rw [hps] at hapart hwanted
      rwa [loadAll_own (hwf.low p hmem) hapart hrange hrest, if_neg hnot] at hwanted
    · intro before p mid q last hps a ha hq hlast
      have hmem : p ∈ segments c drives := by
        rw [hps]
        exact List.mem_append_right before List.mem_cons_self
      have hwanted := h p hmem a ha
      rw [hps] at hapart hwanted
      rwa [loadAll_later hapart ha hq hlast] at hwanted
  · intro h p hp a ha
    have hp_low := hwf.low p hp
    obtain ⟨before, rest, hps⟩ := List.append_of_mem hp
    by_cases hlater : ∃ q ∈ rest, q.Sectors a
    · obtain ⟨mid, q, last, hrest, hq, hlast⟩ := exists_last hlater
      rw [hrest] at hps
      have hbyte := h.later before p mid q last hps a ha hq hlast
      rw [hps] at hapart ⊢
      rw [loadAll_later hapart ha hq hlast, hbyte]
    · have hrest : ∀ r ∈ rest, ¬ r.Sectors a := fun r hr hsectors => hlater ⟨r, hr, hsectors⟩
      have hown := h.own before p rest hps a
      rw [hps] at hapart ⊢
      rw [loadAll_own hp_low hapart ha hrest]
      unfold Phdr.Range at ha
      by_cases hbss : p.Bss a
      · unfold Phdr.Bss at hbss
        rw [if_pos (by unfold Phdr.Bss; omega), wanted, if_neg (by omega)]
      · rw [if_neg hbss]
        unfold Phdr.Bss at hbss
        exact hown (by unfold Phdr.Data; omega) hrest

/-- The image is in memory after the loader has run if its segments leave the loader and the
headers that it still reads alone, and the sectors read for one segment put no wrong byte into
another. While the headers are left alone, it is there only then. -/
theorem loadElf_loads (hwf : WellFormed c drives) (header : Header drives mem) :
    (HeaderKept c drives ∧ OwnKept stack (segments c drives) ∧
        Undisturbed drives (segments c drives) → Loads stack c drives mem) ∧
      (Loads stack c drives mem → HeaderKept c drives →
        OwnKept stack (segments c drives) ∧ Undisturbed drives (segments c drives)) := by
  constructor
  · rintro ⟨hkept, hown, hundisturbed⟩
    exact ⟨_, loadElf_kept hwf hkept header hown, (loadAll_loaded_iff hwf).2 hundisturbed⟩
  · rintro ⟨mem', hrun, hloaded⟩ hkept
    by_cases hown : OwnKept stack (segments c drives)
    · rw [loadElf_kept hwf hkept header hown] at hrun
      cases hrun
      exact ⟨hown, (loadAll_loaded_iff hwf).1 hloaded⟩
    · rw [loadElf_hits hwf hkept header hown] at hrun
      cases hrun

/-! ## The kernel -/

/-- A run of `copy_from_disk` for whole sectors that leaves the loader's own memory alone. -/
theorem copyFromDisk_kept {buf nbytes : Nat} {diskOffset : Int} (haligned : buf % SECTSIZE = 0)
    (hlow : buf + nbytes ≤ 0x80000000)
    (hkept : ∀ a, buf ≤ a → a < buf + sectorCount buf nbytes * SECTSIZE →
      ¬ (byteDisk stack).Own a) :
    (byteDisk stack).copyFromDisk buf nbytes diskOffset mem drives =
      some (sectorsRead drives (sectorCount buf nbytes) mem buf (firstSector diskOffset),
        drives) := by
  have hstart : sectorStart buf = buf := Nat.div_mul_cancel (Nat.dvd_of_mod_eq_zero haligned)
  have hend : uint32 (buf + nbytes) = buf + nbytes := Nat.mod_eq_of_lt (by omega)
  have hcount : sectorCount buf nbytes = (buf + nbytes - buf + (SECTSIZE - 1)) / SECTSIZE := by
    rw [sectorCount, hend, hstart]
  rw [Loader.copyFromDisk, hstart, hend]
  exact copySectors_kept haligned (by omega) hcount (by rw [hcount]; unfold SECTSIZE; omega) hkept

theorem header_read (drives : Drives) (mem : Memory) :
    Header drives (sectorsRead drives 8 mem elfAddr (firstSector 0)) := by
  intro k hk
  have hfirst : firstSector 0 = 3 := by decide
  have hsmall : 3 + k / 512 < 0x10000000 := by omega
  have hsector : uint32 (3 + k / 512) = 3 + k / 512 := Nat.mod_eq_of_lt (by omega)
  rw [sectorsRead_apply _ _ _ (firstSector_lt _), hfirst, Nat.add_sub_cancel_left]
  unfold SECTSIZE
  rw [if_pos (by omega), hsector, sectorByte_low hsmall]
  unfold file SECTSIZE ARGSIZE
  exact congrArg (drives 0) (by omega)

def formatOf (drives : Drives) : Format :=
  if readLE (file drives) 18 2 = EM_X86_64 then .elf64 else .elf32

/-- `load_kernel` copies the header and loads the image in its format, if the stack is above the
copy. -/
theorem loadImage_eq (hstack : 0x9000 ≤ stack) (mem : Memory) :
    ∃ header, Header drives header ∧ (byteDisk stack).loadImage mem drives =
      (byteDisk stack).loadElf (formatOf drives) elfAddr header drives := by
  have hargs : sectorCount MAINARG_ADDR 1024 = 2 := by decide
  have hheader : sectorCount elfAddr 4096 = 8 := by decide
  have harg_kept : ∀ a, MAINARG_ADDR ≤ a →
      a < MAINARG_ADDR + sectorCount MAINARG_ADDR 1024 * SECTSIZE →
        ¬ (byteDisk stack).Own a := by
    intro a hfrom hto hown
    rw [hargs] at hto
    unfold MAINARG_ADDR SECTSIZE at *
    unfold Loader.Own at hown
    omega
  have hheader_kept : ∀ a, elfAddr ≤ a → a < elfAddr + sectorCount elfAddr 4096 * SECTSIZE →
      ¬ (byteDisk stack).Own a := by
    intro a hfrom hto hown
    rw [hheader] at hto
    unfold elfAddr SECTSIZE at *
    unfold Loader.Own byteDisk at hown
    dsimp only at hown
    omega
  have hread := header_read drives
    (sectorsRead drives 2 mem MAINARG_ADDR (firstSector (-1024)))
  refine ⟨_, hread, ?_⟩
  have hmachine : machine (sectorsRead drives 8 (sectorsRead drives 2 mem MAINARG_ADDR
      (firstSector (-1024))) elfAddr (firstSector 0)) = readLE (file drives) 18 2 :=
    readLE_congr fun k hk => by
      rw [Nat.add_assoc]
      exact hread _ (by omega)
  rw [Loader.loadImage, copyFromDisk_kept (by decide) (by decide) harg_kept, hargs]
  simp only [Option.bind_eq_bind, Option.bind_some]
  rw [copyFromDisk_kept (by decide) (by decide) hheader_kept, hheader]
  simp only [Option.bind_some, hmachine]
  unfold formatOf Loader.loadElf64 Loader.loadElf32
  split
  · rfl
  · rfl

/-! ## Two images -/

/-- A disk with a 32-bit image of two segments of 16 bytes. Their addresses are in one sector
of memory, `0x100000` and `0x100010`, and their bytes in two sectors of the file, at `0x1000`
and `0x1210`. The first byte of the first segment is 1. -/
def sharedSector : Drives := fun drive k =>
  if drive = 0 then
    match k - 1536 with
    | 28 => 52
    | 44 => 2
    | 57 => 0x10
    | 66 => 0x10
    | 68 => 0x10
    | 72 => 0x10
    | 88 => 0x10
    | 89 => 0x12
    | 96 => 0x10
    | 98 => 0x10
    | 100 => 0x10
    | 104 => 0x10
    | 0x1000 => 1
    | _ => 0
  else 0

theorem segments_sharedSector :
    segments .elf32 sharedSector =
      [⟨0x10, 0x10, 0x100000, 0x1000⟩, ⟨0x10, 0x10, 0x100010, 0x1210⟩] := by
  decide +kernel

theorem wellFormed_sharedSector : WellFormed .elf32 sharedSector where
  table := by decide +kernel
  low := by
    rw [segments_sharedSector]
    intro p hp
    rcases List.mem_cons.1 hp with rfl | hp
    · exact ⟨by decide, by decide⟩
    · rcases List.mem_singleton.1 hp with rfl
      exact ⟨by decide, by decide⟩
  congruent := by
    rw [segments_sharedSector]
    decide
  apart := by
    rw [segments_sharedSector]
    apply List.pairwise_pair.2
    unfold Phdr.Range
    intro a ha
    simp only at ha
    omega
  offHeader := by
    rw [segments_sharedSector]
    unfold Phdr.Range elfAddr
    intro p hp a ha
    rcases List.mem_cons.1 hp with rfl | hp
    · dsimp only at ha
      omega
    · rcases List.mem_singleton.1 hp with rfl
      dsimp only at ha
      omega

theorem header_copied (drives : Drives) :
    Header drives fun a => file drives (a - elfAddr) := by
  intro k _
  dsimp only
  rw [Nat.add_sub_cancel_left]

/-- The same image with the first segment only. -/
def oneSegment : Drives := fun drive k =>
  if drive = 0 ∧ k = 1580 then 1 else sharedSector drive k

theorem segments_oneSegment :
    segments .elf32 oneSegment = [⟨0x10, 0x10, 0x100000, 0x1000⟩] := by
  decide +kernel

theorem wellFormed_oneSegment : WellFormed .elf32 oneSegment where
  table := by decide +kernel
  low := by
    rw [segments_oneSegment]
    intro p hp
    rcases List.mem_singleton.1 hp with rfl
    exact ⟨by decide, by decide⟩
  congruent := by
    rw [segments_oneSegment]
    decide
  apart := by
    rw [segments_oneSegment]
    exact List.pairwise_singleton _ _
  offHeader := by
    rw [segments_oneSegment]
    unfold Phdr.Range elfAddr
    intro p hp a ha
    rcases List.mem_singleton.1 hp with rfl
    dsimp only at ha
    omega

theorem oneSegment_stores {a : Nat}
    (ha : (Phdr.mk 0x10 0x10 0x100000 0x1000).Stores a) : 0x100000 ≤ a := by
  rcases ha with ha | ha
  · exact Nat.le_trans (by decide) ha.1
  · exact Nat.le_trans (by decide) ha.1

theorem loadElf_loads_oneSegment :
    Loads 0x9000 .elf32 oneSegment fun a => file oneSegment (a - elfAddr) := by
  apply (loadElf_loads wellFormed_oneSegment (header_copied oneSegment)).1
  have hall : ∀ p ∈ segments .elf32 oneSegment, p = ⟨0x10, 0x10, 0x100000, 0x1000⟩ := by
    rw [segments_oneSegment]
    exact fun p hp => List.mem_singleton.1 hp
  refine ⟨?_, ?_, ?_, ?_⟩
  · intro before p rest hps k huse hsectors
    have hp := hall p (by rw [hps]; exact List.mem_append_right before List.mem_cons_self)
    have hfrom := oneSegment_stores (hp ▸ Or.inl hsectors)
    have hlt := huse.lt wellFormed_oneSegment
    unfold elfAddr at hfrom
    omega
  · intro p hp a ha hown
    have hfrom := oneSegment_stores (hall p hp ▸ ha)
    unfold Loader.Own at hown
    omega
  · intro before p rest hps a ha _
    have hp : p ∈ segments .elf32 oneSegment := by
      rw [hps]
      exact List.mem_append_right before List.mem_cons_self
    exact brought_eq_file (wellFormed_oneSegment.low p hp) (by rw [hall p hp]; decide)
      (wellFormed_oneSegment.congruent p hp) ha
  · intro before p mid q last hps
    rw [segments_oneSegment] at hps
    have hlength := congrArg List.length hps
    simp only [List.length_append, List.length_cons, List.length_nil] at hlength
    omega

/-- The load of the second segment overwrites the first. -/
theorem sharedSector_overwritten :
    WellFormed .elf32 sharedSector ∧
      Header sharedSector (fun a => file sharedSector (a - elfAddr)) ∧
      ∃ r, (byteDisk 0x9000).loadElf .elf32 elfAddr
        (fun a => file sharedSector (a - elfAddr)) sharedSector = some r ∧
        ¬ Loaded .elf32 sharedSector r.1 := by
  have hzero : ((byteDisk 0x9000).loadElf .elf32 elfAddr
      (fun a => file sharedSector (a - elfAddr)) sharedSector).map (fun r => r.1 0x100000) =
        some 0 := by
    decide +kernel
  obtain ⟨r, hrun, hbyte⟩ := Option.map_eq_some_iff.1 hzero
  refine ⟨wellFormed_sharedSector, header_copied sharedSector, r, hrun, ?_⟩
  intro hloaded
  have hfirst : ⟨0x10, 0x10, 0x100000, 0x1000⟩ ∈ segments .elf32 sharedSector := by
    rw [segments_sharedSector]
    exact List.mem_cons_self
  have hwanted : r.1 0x100000 = file sharedSector 0x1000 := (hloaded _ hfirst).1 0 (by decide)
  rw [hbyte] at hwanted
  revert hwanted
  decide +kernel

end OSLabs.Boot
