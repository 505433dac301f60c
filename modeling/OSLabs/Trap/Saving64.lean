import OSLabs.Trap.Sequences

/-! # What a trap saves, with 64 bits

At the call of the handler the stack holds a complete `trap_frame`, and the saved context in
it is the state that was interrupted.
-/

namespace OSLabs.Trap

open Lib (ByteMemory)
open Lib.ByteMemory

variable {R : Type} {w : Nat}

/-! ## Stubs -/

/-- The stub leaves the error code to the processor exactly where it pushes one. -/
def Agreed (vector : Nat) : Prop := vector ∉ [17, 21, 29, 30]

instance (vector : Nat) : Decidable (Agreed vector) := inferInstanceAs (Decidable (¬_))

def irqOf (w vector : Nat) : BitVec w :=
  if vector ∈ IRQS.map Irq.id then .ofNat w vector else -1

def codeOf (vector : Nat) (errcode : BitVec w) : BitVec w :=
  if hasErrorCode vector then errcode else 0

theorem stub_of_errorCode {vector : Nat} (hv : Agreed vector) (hcode : hasErrorCode vector) :
    stub vector = ([.cli, .pushImm (irqOf w vector)] : List (Instr R w)) := by
  have hmem : vector ∈ [8, 10, 11, 12, 13, 14] := by
    unfold Agreed at hv
    unfold hasErrorCode at hcode
    simp only [List.mem_cons, List.not_mem_nil, or_false] at hv hcode ⊢
    omega
  simp only [List.mem_cons, List.not_mem_nil, or_false] at hmem
  rcases hmem with rfl | rfl | rfl | rfl | rfl | rfl <;> rfl

theorem errorCode_of_err : ∀ irq ∈ IRQS, irq.err = true → hasErrorCode irq.id := by decide

theorem stub_of_not_errorCode {vector : Nat} (hcode : ¬hasErrorCode vector) :
    stub vector = ([.cli, .pushImm 0, .pushImm (irqOf w vector)] : List (Instr R w)) := by
  unfold stub
  cases hfind : IRQS.find? fun irq => irq.id = vector with
  | none =>
      have hnot : vector ∉ IRQS.map Irq.id := by
        intro hmem
        obtain ⟨irq, hirq, hid⟩ := List.mem_map.1 hmem
        exact List.find?_eq_none.1 hfind irq hirq (decide_eq_true hid)
      rw [irqOf, if_neg hnot]
  | some irq =>
      have hirq := List.mem_of_find?_eq_some hfind
      have hid : irq.id = vector := by simpa using List.find?_some hfind
      have herr : irq.err = false := by
        cases hirqErr : irq.err with
        | false => rfl
        | true =>
            rw [← hid] at hcode
            exact absurd (errorCode_of_err irq hirq hirqErr) hcode
      have hmem : vector ∈ IRQS.map Irq.id := List.mem_map.2 ⟨irq, hirq, hid⟩
      rw [irqOf, if_pos hmem]
      simp [herr, hid]

/-- The processor and the stub together push the error code, or 0, and the vector. -/
theorem stub_pushed [DecidableEq R] {vector : Nat} (hv : Agreed vector)
    {errcode top : BitVec w} {s : Machine R w}
    {mem : ByteMemory w} {vs : List (BitVec w)}
    (pushed : Pushed mem top s.mem s.sp ((if hasErrorCode vector then [errcode] else []) ++ vs))
    (hfit : w / 8 * (vs.length + 2) ≤ 2 ^ w) (hw : 8 ∣ w) :
    ∃ mem' sp' flags', s.run (stub vector) = { s with mem := mem', sp := sp', flags := flags' } ∧
      Pushed mem top mem' sp' (irqOf w vector :: codeOf vector errcode :: vs) := by
  have hone : w / 8 * (vs.length + 1) ≤ w / 8 * (vs.length + 2) :=
    Nat.mul_le_mul_left _ (by omega)
  by_cases hcode : hasErrorCode vector
  · rw [if_pos hcode] at pushed
    rw [stub_of_errorCode hv hcode, codeOf, if_pos hcode]
    exact ⟨_, _, _, rfl, pushed.push hfit hw _⟩
  · rw [if_neg hcode, List.nil_append] at pushed
    rw [stub_of_not_errorCode hcode, codeOf, if_neg hcode]
    have hzero := pushed.push (by omega) hw 0
    exact ⟨_, _, _, rfl, hzero.push hfit hw _⟩

/-! ## The frame -/

/-- Where the processor starts to push. -/
def top64 (s : Machine64) : BitVec 64 := (if User s.cs then s.sp0 else s.sp) &&& ~~~15

variable {s : Machine64} {vector : Nat} {errcode : BitVec 64}

theorem deliver64_pushed (vector : Nat) (errcode : BitVec 64) (s : Machine64) :
    ∃ mem' sp', deliver64 vector errcode s = { s with
        mem := mem', sp := sp', cs := KSEL SEG_KCODE, flags := gateFlags s.flags,
        ss := if User s.cs then 0 else s.ss } ∧
      Pushed s.mem (top64 s) mem' sp' ((if hasErrorCode vector then [errcode] else []) ++
        [s.ip, s.cs.setWidth 64, s.flags, s.sp, s.ss.setWidth 64]) := by
  have hss := (Pushed.nil s.mem (top64 s)).push (by simp) (by decide) (s.ss.setWidth 64)
  have hsp := hss.push (by simp) (by decide) s.sp
  have hflags := hsp.push (by simp) (by decide) s.flags
  have hcs := hflags.push (by simp) (by decide) (s.cs.setWidth 64)
  have hip := hcs.push (by simp) (by decide) s.ip
  by_cases hcode : hasErrorCode vector
  · simp only [deliver64, hcode, if_true]
    exact ⟨_, _, rfl, hip.push (by simp) (by decide) errcode⟩
  · simp only [deliver64, hcode, if_false]
    exact ⟨_, _, rfl, hip⟩

def savedRegs64 : List Reg64 :=
  [.rax, .rbx, .rcx, .rdx, .rbp, .rsi, .rdi, .r8, .r9, .r10, .r11, .r12, .r13, .r14, .r15]

/-- At the call of the handler, `gap` is where the handler stores the rest of the context. -/
theorem enter64_pushed (hv : Agreed vector) (errcode : BitVec 64) (s : Machine64) :
    ∃ mem' sp' flags' gap, enter64 vector errcode s = { s with
        mem := mem', sp := sp', cs := KSEL SEG_KCODE, flags := flags',
        ss := if User s.cs then 0 else s.ss } ∧ gap.length = 6 ∧
      Pushed s.mem (top64 s) mem' sp' (0 :: (savedRegs64.map s.regs ++ (gap ++
        [irqOf 64 vector, codeOf vector errcode, s.ip, s.cs.setWidth 64, s.flags, s.sp,
          s.ss.setWidth 64]))) := by
  obtain ⟨mem₁, sp₁, hdeliver, pushed₁⟩ := deliver64_pushed vector errcode s
  unfold enter64
  rw [hdeliver, Machine.run_append]
  obtain ⟨mem₂, sp₂, flags₂, hstub, pushed₂⟩ := stub_pushed (R := Reg64) (s := { s with
    mem := mem₁, sp := sp₁, cs := KSEL SEG_KCODE, flags := gateFlags s.flags,
    ss := if User s.cs then 0 else s.ss }) hv pushed₁ (by simp) (by decide)
  have hcode : trap64 = [.cli, .subSp 48] ++ (savedRegs64.reverse.map .push ++ [.pushImm 0]) := rfl
  rw [hstub, hcode, Machine.run_append, Machine.run_append]
  have pushed₃ := pushed₂.skip 6
  obtain ⟨mem₄, sp₄, hregs, pushed₄⟩ := Machine.run_pushes (s := Machine.run { s with
    mem := mem₂, sp := sp₂, cs := KSEL SEG_KCODE, flags := flags₂,
    ss := if User s.cs then 0 else s.ss } [.cli, .subSp 48]) savedRegs64.reverse pushed₃
      (by simp [savedRegs64]) (by decide)
  rw [List.map_reverse, List.reverse_reverse] at pushed₄
  rw [hregs]
  refine ⟨_, _, _, words mem₂ (sp₂ - 48) 6, rfl, length_words _ _ _, ?_⟩
  exact pushed₄.push (by simp [savedRegs64]) (by decide) 0

/-! ## The saved context -/

def Context64.words (c : Context64) : List (BitVec 64) :=
  c.cr3 :: (savedRegs64.map c.regs ++ [c.rip, c.cs, c.rflags, c.rsp, c.ss, c.rsp0])

theorem contextAt64_of_words {c : Context64} {mem : ByteMemory 64} {a : BitVec 64} {n : Nat}
    {rest : List (BitVec 64)} (hwords : words mem a n = c.words ++ rest) :
    contextAt64 mem a = c := by
  have hlength : n = 22 + rest.length := by
    have hlengths := congrArg List.length hwords
    rw [length_words, List.length_append] at hlengths
    exact hlengths
  have hload (i : Nat) (hi : i < 22) : c.words[i]? = some (load mem (slot a i)) := by
    have hword := load_of_words hwords (i := i) (by omega)
    rwa [List.getElem?_append_left (by exact hi)] at hword
  unfold contextAt64
  congr 1
  · exact (Option.some.inj (hload 0 (by decide))).symm
  · funext r
    have hplace : r.place < 22 := by cases r <;> decide
    have hr := hload r.place hplace
    cases r <;> exact (Option.some.inj hr).symm
  · exact (Option.some.inj (hload 16 (by decide))).symm
  · exact (Option.some.inj (hload 17 (by decide))).symm
  · exact (Option.some.inj (hload 18 (by decide))).symm
  · exact (Option.some.inj (hload 19 (by decide))).symm
  · exact (Option.some.inj (hload 20 (by decide))).symm
  · exact (Option.some.inj (hload 21 (by decide))).symm

def savedContext64 (s : Machine64) : Context64 where
  cr3 := s.cr3
  regs := s.regs
  rip := s.ip
  cs := s.cs.setWidth 64
  rflags := s.flags
  rsp := s.sp
  ss := s.ss.setWidth 64
  rsp0 := s.sp0

/-- A frame as the entry leaves it for an interrupt of `s`. -/
def FrameOf64 (s : Machine64) (vector : Nat) (errcode : BitVec 64) (mem : ByteMemory 64)
    (tf : BitVec 64) : Prop :=
  ∃ gap, gap.length = 6 ∧ words mem tf 29 = 0 :: (savedRegs64.map s.regs ++ (gap ++
    [irqOf 64 vector, codeOf vector errcode, s.ip, s.cs.setWidth 64, s.flags, s.sp,
      s.ss.setWidth 64]))

theorem trapFrameAt_of_words {cw : Nat} {mem : ByteMemory w} {tf : BitVec w}
    {l : List (BitVec w)} {f : TrapFrame w} (hw : words mem tf (cw + 7) = l)
    (hl : l.drop cw = [f.irq, f.errcode, f.ip, f.cs, f.flags, f.sp, f.ss]) :
    trapFrameAt cw mem tf = f := by
  have hload (i : Nat) (hi : i < 7) : (l.drop cw)[i]? = some (load mem (slot tf (cw + i))) := by
    rw [List.getElem?_drop]
    exact load_of_words hw (by omega)
  rw [hl] at hload
  have h0 := Option.some.inj (hload 0 (by decide))
  have h1 := Option.some.inj (hload 1 (by decide))
  have h2 := Option.some.inj (hload 2 (by decide))
  have h3 := Option.some.inj (hload 3 (by decide))
  have h4 := Option.some.inj (hload 4 (by decide))
  have h5 := Option.some.inj (hload 5 (by decide))
  have h6 := Option.some.inj (hload 6 (by decide))
  unfold trapFrameAt
  rw [← h1, ← h2, ← h3, ← h4, ← h5, ← h6]
  rw [Nat.add_zero] at h0
  rw [← h0]

theorem six_of_length {α : Type} {l : List α} (h : l.length = 6) :
    ∃ a b c d e f, l = [a, b, c, d, e, f] := by
  match l, h with
  | [a, b, c, d, e, f], _ => exact ⟨a, b, c, d, e, f, rfl⟩

theorem FrameOf64.frame {mem : ByteMemory 64} {tf : BitVec 64}
    (h : FrameOf64 s vector errcode mem tf) : trapFrameAt contextWords64 mem tf =
      ⟨irqOf 64 vector, codeOf vector errcode, s.ip, s.cs.setWidth 64, s.flags, s.sp,
        s.ss.setWidth 64⟩ := by
  obtain ⟨gap, hgap, hwords⟩ := h
  obtain ⟨g0, g1, g2, g3, g4, g5, rfl⟩ := six_of_length hgap
  exact trapFrameAt_of_words hwords rfl

/-- The handler finds the interrupted state in the saved context. -/
theorem FrameOf64.saved {t : Machine64} {tf : BitVec 64} (h : FrameOf64 s vector errcode t.mem tf)
    (hcr3 : t.cr3 = s.cr3) (hsp0 : t.sp0 = s.sp0) :
    contextAt64 (saveContext64 t tf).mem tf = savedContext64 s := by
  have hframe := h.frame
  obtain ⟨gap, hgap, hwords⟩ := h
  obtain ⟨g0, g1, g2, g3, g4, g5, rfl⟩ := six_of_length hgap
  have hstored : words (saveContext64 t tf).mem tf 29 = (savedContext64 s).words ++
      [irqOf 64 vector, codeOf vector errcode, s.ip, s.cs.setWidth 64, s.flags, s.sp,
        s.ss.setWidth 64] := by
    unfold saveContext64
    simp (disch := decide) only [words_store, hframe, hcr3, hsp0]
    rw [hwords]
    rfl
  exact contextAt64_of_words hstored

end OSLabs.Trap
