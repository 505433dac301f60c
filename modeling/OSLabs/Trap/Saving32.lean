import OSLabs.Trap.Saving64

/-! # What a trap saves, with 32 bits

The frame is shorter if the kernel is interrupted, since the processor then pushes neither
the stack pointer nor `ss`; `__am_irq_handle` computes the stack pointer from the place of
the frame.
-/

namespace OSLabs.Trap

open Lib (ByteMemory)
open Lib.ByteMemory

variable {s : Machine32} {vector : Nat} {errcode : BitVec 32}

/-! ## The frame -/

/-- The words that the processor pushes on the way from user code. -/
def userWords (s : Machine32) : List (BitVec 32) :=
  if User s.cs then [s.sp, s.ss.setWidth 32] else []

def top32 (s : Machine32) : BitVec 32 := if User s.cs then s.sp0 else s.sp

theorem deliver32_pushed (vector : Nat) (errcode : BitVec 32) (s : Machine32) :
    ∃ mem' sp' ss', deliver32 vector errcode s = { s with
        mem := mem', sp := sp', cs := KSEL SEG_KCODE, flags := gateFlags s.flags, ss := ss' } ∧
      Pushed s.mem (top32 s) mem' sp' ((if hasErrorCode vector then [errcode] else []) ++
        (s.ip :: s.cs.setWidth 32 :: s.flags :: userWords s)) := by
  by_cases huser : User s.cs
  · have hwords : userWords s = [s.sp, s.ss.setWidth 32] := if_pos huser
    have htop : top32 s = s.sp0 := if_pos huser
    have hss := (Pushed.nil s.mem s.sp0).push (by simp) (by decide) (s.ss.setWidth 32)
    have hsp := hss.push (by simp) (by decide) s.sp
    have hflags := hsp.push (by simp) (by decide) s.flags
    have hcs := hflags.push (by simp) (by decide) (s.cs.setWidth 32)
    have hip := hcs.push (by simp) (by decide) s.ip
    rw [hwords, htop]
    by_cases hcode : hasErrorCode vector
    · simp only [deliver32, huser, hcode, if_true]
      exact ⟨_, _, _, rfl, hip.push (by simp) (by decide) errcode⟩
    · simp only [deliver32, huser, hcode, if_true, if_false]
      exact ⟨_, _, _, rfl, hip⟩
  · have hwords : userWords s = [] := if_neg huser
    have htop : top32 s = s.sp := if_neg huser
    have hflags := (Pushed.nil s.mem s.sp).push (by simp) (by decide) s.flags
    have hcs := hflags.push (by simp) (by decide) (s.cs.setWidth 32)
    have hip := hcs.push (by simp) (by decide) s.ip
    rw [hwords, htop]
    by_cases hcode : hasErrorCode vector
    · simp only [deliver32, huser, hcode, if_true, if_false]
      exact ⟨_, _, _, rfl, hip.push (by simp) (by decide) errcode⟩
    · simp only [deliver32, huser, hcode, if_false]
      exact ⟨_, _, _, rfl, hip⟩

theorem length_userWords (s : Machine32) : (userWords s).length ≤ 2 := by
  unfold userWords
  split <;> simp

theorem setLow_setWidth (x : BitVec 32) (v : BitVec 16) : (setLow x v).setWidth 16 = v := by
  apply BitVec.eq_of_getLsbD_eq
  intro i hi
  simp [setLow, hi]

/-- The words of the frame, where `gap` is left for the handler. -/
def frameWords32 (s : Machine32) (vector : Nat) (errcode : BitVec 32) (gap : List (BitVec 32)) :
    List (BitVec 32) :=
  [0, setLow (s.regs .eax) s.ds, s.regs .eax, s.regs .ebx, s.regs .ecx, s.regs .edx, 0,
    s.regs .esi, s.regs .edi, s.regs .ebp] ++ (gap ++ (irqOf 32 vector :: codeOf vector errcode ::
      s.ip :: s.cs.setWidth 32 :: s.flags :: userWords s))

theorem segments32 (t : Machine32) : ∃ regs', t.run [.movwImm (KSEL SEG_KDATA) .eax, .movwToDs .eax,
    .movwToEs .eax, .movwToSs .eax] = { t with
      regs := regs', ds := KSEL SEG_KDATA, es := KSEL SEG_KDATA, ss := KSEL SEG_KDATA } := by
  refine ⟨Function.update t.regs .eax (setLow (t.regs .eax) (KSEL SEG_KDATA)), ?_⟩
  simp only [Machine.run, List.foldl_cons, List.foldl_nil, Machine.exec, Machine.setReg,
    Function.update_self, setLow_setWidth]

theorem trap32_pushed {t : Machine32} {mem : ByteMemory 32} {top : BitVec 32}
    {vs : List (BitVec 32)} (pushed : Pushed mem top t.mem t.sp vs) (hfit : vs.length ≤ 20) :
    ∃ mem' sp' flags' gap, t.run [.cli, .subSp 20, .push .ebp, .push .edi, .push .esi, .pushImm 0,
        .push .edx, .push .ecx, .push .ebx, .push .eax, .movwFromDs .eax, .push .eax,
        .pushImm 0] = { t with
          mem := mem', sp := sp', flags := flags'
          regs := Function.update t.regs .eax (setLow (t.regs .eax) t.ds) } ∧ gap.length = 5 ∧
      Pushed mem top mem' sp' ([0, setLow (t.regs .eax) t.ds, t.regs .eax, t.regs .ebx,
        t.regs .ecx, t.regs .edx, 0, t.regs .esi, t.regs .edi, t.regs .ebp] ++ (gap ++ vs)) := by
  have hgap := pushed.skip 5
  have hebp := hgap.push (by simp; omega) (by decide) (t.regs .ebp)
  have hedi := hebp.push (by simp; omega) (by decide) (t.regs .edi)
  have hesi := hedi.push (by simp; omega) (by decide) (t.regs .esi)
  have hesp0 := hesi.push (by simp; omega) (by decide) 0
  have hedx := hesp0.push (by simp; omega) (by decide) (t.regs .edx)
  have hecx := hedx.push (by simp; omega) (by decide) (t.regs .ecx)
  have hebx := hecx.push (by simp; omega) (by decide) (t.regs .ebx)
  have heax := hebx.push (by simp; omega) (by decide) (t.regs .eax)
  have hds := heax.push (by simp; omega) (by decide) (setLow (t.regs .eax) t.ds)
  have hcr3 := hds.push (by simp; omega) (by decide) 0
  refine ⟨_, _, statusSub (setFlag t.flags FL_IF false) t.sp 20, _, ?_, length_words _ _ _, hcr3⟩
  simp only [Machine.run, List.foldl_cons, List.foldl_nil, Machine.exec, Machine.setReg,
    Machine.pushWord, Function.update_self]
  rfl

theorem enter32_pushed (hv : Agreed vector) (errcode : BitVec 32) (s : Machine32) :
    ∃ mem' regs' sp' flags' gap, enter32 vector errcode s = { s with
        mem := mem', regs := regs', sp := sp', cs := KSEL SEG_KCODE, flags := flags'
        ds := KSEL SEG_KDATA, es := KSEL SEG_KDATA, ss := KSEL SEG_KDATA } ∧ gap.length = 5 ∧
      Pushed s.mem (top32 s) mem' sp' (frameWords32 s vector errcode gap) := by
  obtain ⟨mem₁, sp₁, ss₁, hdeliver, pushed₁⟩ := deliver32_pushed vector errcode s
  have hlength := length_userWords s
  unfold enter32
  rw [hdeliver, Machine.run_append]
  obtain ⟨mem₂, sp₂, flags₂, hstub, pushed₂⟩ := stub_pushed (R := Reg32) (s := { s with
    mem := mem₁, sp := sp₁, cs := KSEL SEG_KCODE, flags := gateFlags s.flags, ss := ss₁ })
    hv pushed₁ (by simp; omega) (by decide)
  have hcode : trap32 = [.cli, .subSp 20, .push .ebp, .push .edi, .push .esi, .pushImm 0,
    .push .edx, .push .ecx, .push .ebx, .push .eax, .movwFromDs .eax, .push .eax, .pushImm 0] ++
      [.movwImm (KSEL SEG_KDATA) .eax, .movwToDs .eax, .movwToEs .eax, .movwToSs .eax] := rfl
  rw [hstub, hcode, Machine.run_append]
  obtain ⟨mem₃, sp₃, flags₃, gap, htrap, hgap, pushed₃⟩ := trap32_pushed (t := { s with
    mem := mem₂, sp := sp₂, cs := KSEL SEG_KCODE, flags := flags₂, ss := ss₁ }) pushed₂
      (by simp; omega)
  rw [htrap]
  obtain ⟨regs₄, hsegments⟩ := segments32 { s with
    mem := mem₃, sp := sp₃, cs := KSEL SEG_KCODE, flags := flags₃, ss := ss₁
    regs := Function.update s.regs .eax (setLow (s.regs .eax) s.ds) }
  exact ⟨mem₃, regs₄, sp₃, flags₃, gap, hsegments, hgap, pushed₃⟩

/-! ## The saved context -/

def Context32.words (c : Context32) : List (BitVec 32) :=
  [c.cr3, c.ds, c.regs .eax, c.regs .ebx, c.regs .ecx, c.regs .edx, c.esp0, c.regs .esi,
    c.regs .edi, c.regs .ebp, c.eip, c.cs, c.eflags, c.esp, c.ss3]

theorem contextAt32_of_words {c : Context32} {mem : ByteMemory 32} {a : BitVec 32} {n : Nat}
    {rest : List (BitVec 32)} (hwords : words mem a n = c.words ++ rest) :
    contextAt32 mem a = c := by
  have hlength : n = 15 + rest.length := by
    have hlengths := congrArg List.length hwords
    rw [length_words, List.length_append] at hlengths
    exact hlengths
  have hload (i : Nat) (hi : i < 15) : c.words[i]? = some (load mem (slot a i)) := by
    have hword := load_of_words hwords (i := i) (by omega)
    rwa [List.getElem?_append_left (by exact hi)] at hword
  unfold contextAt32
  congr 1
  · exact (Option.some.inj (hload 0 (by decide))).symm
  · exact (Option.some.inj (hload 1 (by decide))).symm
  · funext r
    have hplace : r.place < 15 := by cases r <;> decide
    have hr := hload r.place hplace
    cases r <;> exact (Option.some.inj hr).symm
  · exact (Option.some.inj (hload 6 (by decide))).symm
  · exact (Option.some.inj (hload 10 (by decide))).symm
  · exact (Option.some.inj (hload 11 (by decide))).symm
  · exact (Option.some.inj (hload 12 (by decide))).symm
  · exact (Option.some.inj (hload 13 (by decide))).symm
  · exact (Option.some.inj (hload 14 (by decide))).symm

def savedContext32 (s : Machine32) : Context32 where
  cr3 := s.cr3
  ds := setLow (s.regs .eax) s.ds
  regs := s.regs
  esp0 := s.sp0
  eip := s.ip
  cs := s.cs.setWidth 32
  eflags := s.flags
  esp := s.sp
  ss3 := (USEL SEG_UDATA).setWidth 32

/-- A frame as the entry leaves it for an interrupt of `s`. If the kernel is interrupted, its
stack goes on behind 20 words. -/
structure FrameOf32 (s : Machine32) (vector : Nat) (errcode : BitVec 32) (mem : ByteMemory 32)
    (tf : BitVec 32) : Prop where
  words_eq : ∃ gap, gap.length = 5 ∧
    words mem tf (20 + (userWords s).length) = frameWords32 s vector errcode gap
  top_eq : slot tf (20 + (userWords s).length) = top32 s

theorem and_three (cs : BitVec 16) : cs.setWidth 32 &&& 3 ≠ 0 ↔ User cs := by
  have hthree : (3 : BitVec 32) = (3 : BitVec 16).setWidth 32 := by decide
  unfold User
  rw [hthree, ← BitVec.setWidth_and, not_iff_not]
  constructor
  · intro hzero
    have hlow := congrArg (BitVec.setWidth 16) hzero
    simpa using hlow
  · intro hzero
    rw [hzero]
    rfl

theorem five_of_length {α : Type} {l : List α} (h : l.length = 5) :
    ∃ a b c d e, l = [a, b, c, d, e] := by
  match l, h with
  | [a, b, c, d, e], _ => exact ⟨a, b, c, d, e, rfl⟩

theorem FrameOf32.common {mem : ByteMemory 32} {tf : BitVec 32}
    (h : FrameOf32 s vector errcode mem tf) : ∃ a b c d e, words mem tf 20 =
      [0, setLow (s.regs .eax) s.ds, s.regs .eax, s.regs .ebx, s.regs .ecx, s.regs .edx, 0,
        s.regs .esi, s.regs .edi, s.regs .ebp, a, b, c, d, e, irqOf 32 vector,
        codeOf vector errcode, s.ip, s.cs.setWidth 32, s.flags] := by
  obtain ⟨gap, hgap, hwords⟩ := h.words_eq
  obtain ⟨a, b, c, d, e, rfl⟩ := five_of_length hgap
  rw [words_add] at hwords
  have htake := congrArg (List.take 20) hwords
  rw [List.take_left' (length_words _ _ _)] at htake
  exact ⟨a, b, c, d, e, htake⟩

theorem FrameOf32.user {mem : ByteMemory 32} {tf : BitVec 32}
    (h : FrameOf32 s vector errcode mem tf) (huser : User s.cs) :
    load mem (slot tf 20) = s.sp := by
  obtain ⟨gap, hgap, hwords⟩ := h.words_eq
  obtain ⟨a, b, c, d, e, rfl⟩ := five_of_length hgap
  have huserWords : userWords s = [s.sp, s.ss.setWidth 32] := if_pos huser
  rw [frameWords32, huserWords] at hwords
  exact (Option.some.inj (load_of_words (i := 20) hwords (by simp))).symm

theorem FrameOf32.frame {mem : ByteMemory 32} {tf : BitVec 32}
    (h : FrameOf32 s vector errcode mem tf) :
    (trapFrameAt contextWords32 mem tf).irq = irqOf 32 vector ∧
      (trapFrameAt contextWords32 mem tf).errcode = codeOf vector errcode ∧
      (trapFrameAt contextWords32 mem tf).ip = s.ip ∧
      (trapFrameAt contextWords32 mem tf).cs = s.cs.setWidth 32 ∧
      (trapFrameAt contextWords32 mem tf).flags = s.flags := by
  obtain ⟨a, b, c, d, e, hwords⟩ := h.common
  have hload := fun i hi => load_of_words hwords (i := i) hi
  exact ⟨(Option.some.inj (hload 15 (by decide))).symm,
    (Option.some.inj (hload 16 (by decide))).symm, (Option.some.inj (hload 17 (by decide))).symm,
    (Option.some.inj (hload 18 (by decide))).symm, (Option.some.inj (hload 19 (by decide))).symm⟩

/-- The stack pointer that `__am_irq_handle` finds or computes. -/
theorem FrameOf32.stack {mem : ByteMemory 32} {tf : BitVec 32}
    (h : FrameOf32 s vector errcode mem tf) :
    (if (trapFrameAt contextWords32 mem tf).cs &&& 3 ≠ 0 then
      (trapFrameAt contextWords32 mem tf).sp else slot tf 22 - 8) = s.sp := by
  obtain ⟨-, -, -, hcs, -⟩ := h.frame
  rw [hcs]
  by_cases huser : User s.cs
  · rw [if_pos ((and_three s.cs).2 huser)]
    exact h.user huser
  · have hwords : userWords s = [] := if_neg huser
    have htop := h.top_eq
    rw [hwords] at htop
    have hsp : top32 s = s.sp := if_neg huser
    have hslot : slot tf 22 - 8 = slot tf 20 := by
      rw [← slot_add tf 20 2]
      exact BitVec.add_sub_cancel _ _
    rw [if_neg (mt (and_three s.cs).1 huser), hslot, ← hsp]
    exact htop

theorem FrameOf32.saved {t : Machine32} {tf : BitVec 32} (h : FrameOf32 s vector errcode t.mem tf)
    (hcr3 : t.cr3 = s.cr3) (hsp0 : t.sp0 = s.sp0) :
    contextAt32 (saveContext32 t tf).mem tf = savedContext32 s := by
  obtain ⟨-, -, hip, hcs, hflags⟩ := h.frame
  have hstack := h.stack
  obtain ⟨a, b, c, d, e, hwords⟩ := h.common
  have hstored : words (saveContext32 t tf).mem tf 20 = (savedContext32 s).words ++
      [irqOf 32 vector, codeOf vector errcode, s.ip, s.cs.setWidth 32, s.flags] := by
    unfold saveContext32
    dsimp only
    rw [hstack]
    simp (disch := decide) only [words_store, hip, hcs, hflags, hcr3, hsp0]
    rw [hwords]
    rfl
  exact contextAt32_of_words hstored

end OSLabs.Trap
