import OSLabs.Trap.Saving32

/-! # What a context resumes, with 32 bits

On the way to user code `iret` pops the stack pointer. On the way to the kernel it does not,
so the last words of the context are copied below the new stack pointer and popped there;
the copy may overlap the context.
-/

namespace OSLabs.Trap

open Lib (ByteMemory)
open Lib.ByteMemory

variable {s t : Machine32} {image : Image Reg32 32} {ctx : BitVec 32} {mem mem' : ByteMemory 32}

theorem contextAt32_congr (h : ∀ b, Within ctx 60 b → mem' b = mem b) :
    contextAt32 mem' ctx = contextAt32 mem ctx := by
  have hwords : words mem' ctx 15 = words mem ctx 15 := words_congr h (by decide)
  have hload : ∀ i < 15, load mem' (slot ctx i) = load mem (slot ctx i) := by
    intro i hi
    have heq : (words mem' ctx 15)[i]? = some (load mem' (slot ctx i)) := getElem?_words hi
    rw [hwords, getElem?_words hi] at heq
    exact (Option.some.inj heq).symm
  unfold contextAt32
  congr 1
  · exact hload 0 (by decide)
  · exact hload 1 (by decide)
  · funext r
    have hplace : r.place < 15 := by cases r <;> decide
    exact hload r.place hplace
  · exact hload 6 (by decide)
  · exact hload 10 (by decide)
  · exact hload 11 (by decide)
  · exact hload 12 (by decide)
  · exact hload 13 (by decide)
  · exact hload 14 (by decide)

/-! ## The common part -/

def called32 (image : Image Reg32 32) (s : Machine32) (ctx : BitVec 32) : Machine32 :=
  (s.pushWord ctx).pushWord image.afterCall

theorem called32_argument (image : Image Reg32 32) (s : Machine32) (ctx : BitVec 32) :
    load (called32 image s ctx).mem (slot (called32 image s ctx).sp 1) = ctx := by
  have hctx := (Pushed.nil s.mem s.sp).push (by simp) (by decide) ctx
  have hcall := hctx.push (by simp) (by decide) image.afterCall
  exact (Option.some.inj (load_of_words (i := 1) hcall.words_eq (by simp))).symm

/-- The data segments are loaded, and the code segment is compared with the kernel's. -/
theorem amIret32_eq (image : Image Reg32 32) (s : Machine32) (ctx : BitVec 32) :
    ∃ regs flags, (called32 image s ctx).run amIret32 = { called32 image s ctx with
        regs := regs
        sp := slot ctx 2
        flags := flags
        ds := (contextAt32 (called32 image s ctx).mem ctx).ds.setWidth 16
        es := (contextAt32 (called32 image s ctx).mem ctx).ds.setWidth 16 } ∧
      flags.getLsbD FL_ZF =
        ((contextAt32 (called32 image s ctx).mem ctx).cs.setWidth 16 == KSEL SEG_KCODE) := by
  have hargument := called32_argument image s ctx
  generalize called32 image s ctx = u at hargument ⊢
  have hfour : u.sp + 4 = slot u.sp 1 := rfl
  have hds : ctx + 4 = slot ctx 1 := rfl
  have hsegment : slot (slot ctx 1) 1 = slot ctx 2 := slot_add ctx 1 1
  have hcs : slot ctx 2 + 36 = slot ctx 11 := slot_add ctx 2 9
  refine ⟨Function.update (Function.update u.regs .eax ctx) .eax (load u.mem (slot ctx 1)),
    statusSub (statusAdd (statusAdd u.flags u.sp 4) ctx 4)
      ((load u.mem (slot ctx 11)).setWidth 16) (KSEL SEG_KCODE), ?_, ?_⟩
  · simp only [amIret32, Machine.run, List.foldl_cons, List.foldl_nil, Machine.exec,
      Machine.popWord, Function.update_self, hfour, hargument, hds, hsegment, hcs]
    rfl
  · exact getLsbD_statusSub _ (by decide) _ _

/-- The registers in front of `esp0`. -/
theorem pops32 (t : Machine32) (hsp : t.sp = slot ctx 2) :
    ∃ regs flags, t.run [.pop .eax, .pop .ebx, .pop .ecx, .pop .edx, .addSp 4] =
        { t with regs := regs, sp := slot ctx 7, flags := flags } ∧
      ∀ r ∈ [Reg32.eax, .ebx, .ecx, .edx], regs r = (contextAt32 t.mem ctx).regs r := by
  obtain ⟨regs, hrun, hloaded, -⟩ := Machine.run_pops [.eax, .ebx, .ecx, .edx] (by decide) t
  have hcode : [.pop .eax, .pop .ebx, .pop .ecx, .pop .edx, .addSp 4] =
      [Reg32.eax, .ebx, .ecx, .edx].map Instr.pop ++ [.addSp (4 : BitVec 32)] := rfl
  rw [hsp] at hrun hloaded
  refine ⟨regs, statusAdd t.flags (slot (slot ctx 2) 4) 4, ?_, ?_⟩
  · have hseven : slot (slot ctx 2) 4 + 4 = slot ctx 7 := by
      rw [slot_add]
      exact slot_add ctx 6 1
    rw [hcode, Machine.run_append, hrun, ← hseven]
    rfl
  · have hplace (i : Nat) (r : Reg32) (hr : [Reg32.eax, .ebx, .ecx, .edx][i]? = some r)
        (hi : 2 + i = r.place) : regs r = (contextAt32 t.mem ctx).regs r := by
      rw [hloaded i r hr, slot_add, hi]
      rfl
    simp only [List.mem_cons, List.not_mem_nil, or_false]
    rintro r (rfl | rfl | rfl | rfl)
    · exact hplace 0 _ rfl rfl
    · exact hplace 1 _ rfl rfl
    · exact hplace 2 _ rfl rfl
    · exact hplace 3 _ rfl rfl

/-- The registers behind `esp0`, popped from a block that starts with them. -/
theorem popsIndex32 (t : Machine32) {c : Context32} (hesi : load t.mem (slot t.sp 0) = c.regs .esi)
    (hedi : load t.mem (slot t.sp 1) = c.regs .edi) (hebp : load t.mem (slot t.sp 2) = c.regs .ebp)
    (hregs : ∀ r ∈ [Reg32.eax, .ebx, .ecx, .edx], t.regs r = c.regs r) :
    t.run [.pop .esi, .pop .edi, .pop .ebp] = { t with regs := c.regs, sp := slot t.sp 3 } := by
  obtain ⟨regs, hrun, hloaded, hkept⟩ := Machine.run_pops [.esi, .edi, .ebp] (by decide) t
  have hall : regs = c.regs := by
    funext r
    cases r with
    | eax => rw [hkept .eax (by decide), hregs .eax (by decide)]
    | ebx => rw [hkept .ebx (by decide), hregs .ebx (by decide)]
    | ecx => rw [hkept .ecx (by decide), hregs .ecx (by decide)]
    | edx => rw [hkept .edx (by decide), hregs .edx (by decide)]
    | esi => rw [hloaded 0 .esi rfl, hesi]
    | edi => rw [hloaded 1 .edi rfl, hedi]
    | ebp => rw [hloaded 2 .ebp rfl, hebp]
  rw [← hall]
  exact hrun

/-! ## To user code -/

/-- The machine that runs on from a context of user code. -/
def resumedUser32 (s : Machine32) (c : Context32) : Machine32 :=
  { s with
    regs := c.regs
    sp := c.esp
    ip := c.eip
    flags := c.eflags
    cs := c.cs.setWidth 16
    ds := c.ds.setWidth 16
    es := c.ds.setWidth 16
    ss := c.ss3.setWidth 16 }

theorem userIret32_eq {c : Context32} (hc : contextAt32 t.mem ctx = c) (hsp : t.sp = slot ctx 2)
    (hds : t.ds = c.ds.setWidth 16) (hes : t.es = c.ds.setWidth 16)
    (huser : User (c.cs.setWidth 16)) : iret32 (t.run userIret32) = resumedUser32 t c := by
  have hcode : userIret32 = [.pop .eax, .pop .ebx, .pop .ecx, .pop .edx, .addSp 4] ++
    [.pop .esi, .pop .edi, .pop .ebp] := rfl
  obtain ⟨regs, flags, hrun, hregs⟩ := pops32 t hsp
  subst hc
  have hpops := popsIndex32 { t with regs := regs, sp := slot ctx 7, flags := flags }
    (c := contextAt32 t.mem ctx) (congrArg (load t.mem) (slot_add ctx 7 0))
    (congrArg (load t.mem) (slot_add ctx 7 1)) (congrArg (load t.mem) (slot_add ctx 7 2)) hregs
  rw [hcode, Machine.run_append, hrun, hpops]
  unfold iret32
  simp only [slot_add]
  have hcs : load t.mem (slot ctx (7 + (3 + 1))) = (contextAt32 t.mem ctx).cs := rfl
  rw [if_pos (by rw [hcs]; exact huser), hds, hes]
  rfl

/-! ## To the kernel -/

/-- The code that copies the first `k` words at `%ebp` below `%edi`, the last one first. -/
def copyCode : Nat → List (Instr Reg32 32)
  | 0 => []
  | k + 1 => .load (.ofNat 32 (4 * k)) .ebp .esi :: .store .esi (.ofNat 32 (4 * k) - 24) .edi ::
    copyCode k

theorem copyCode_eq (k : Nat) (t : Machine32) : ∃ v, t.run (copyCode k) = { t with
    regs := Function.update t.regs .esi v
    mem := copyDown (t.regs .edi - 24) (t.regs .ebp) k t.mem } := by
  induction k generalizing t with
  | zero => exact ⟨t.regs .esi, by rw [Function.update_eq_self]; rfl⟩
  | succ k ih =>
      have hstore : t.regs .edi + (BitVec.ofNat 32 (4 * k) - 24) = slot (t.regs .edi - 24) k := by
        unfold slot
        have hbytes : 32 / 8 * k = 4 * k := rfl
        rw [hbytes]
        abel
      have hload : t.regs .ebp + BitVec.ofNat 32 (4 * k) = slot (t.regs .ebp) k := rfl
      obtain ⟨v, hrun⟩ := ih { t with
        regs := Function.update t.regs .esi (load t.mem (slot (t.regs .ebp) k))
        mem := store t.mem (slot (t.regs .edi - 24) k) (load t.mem (slot (t.regs .ebp) k)) }
      have hedi : Reg32.edi ≠ .esi := by decide
      have hebp : Reg32.ebp ≠ .esi := by decide
      refine ⟨v, ?_⟩
      rw [copyCode, Machine.run_cons, Machine.run_cons]
      simp only [Machine.exec, Machine.setReg, Function.update_self,
        Function.update_of_ne hedi, hstore, hload]
      rw [hrun]
      simp only [Function.update_of_ne hedi, Function.update_of_ne hebp, Function.update_idem]
      rfl

/-- The copy does not start below the words that it copies and overlap them. -/
def CopyApart (ctx esp : BitVec 32) : Prop :=
  (ctx + 52 - esp).toNat = 0 ∨ 24 ≤ (ctx + 52 - esp).toNat

/-- The machine that runs on from a context of the kernel. -/
def resumedKernel32 (s : Machine32) (c : Context32) (mem : ByteMemory 32) : Machine32 :=
  { s with
    regs := c.regs
    sp := c.esp
    ip := c.eip
    flags := c.eflags
    cs := c.cs.setWidth 16
    ds := c.ds.setWidth 16
    es := c.ds.setWidth 16
    mem := mem }

/-- The last words of a context as the copy leaves them. -/
theorem load_copied {esp : BitVec 32} (hcopy : CopyApart ctx esp) (mem : ByteMemory 32) {i : Nat}
    (hi : i < 6) : load (copyDown (esp - 24) (slot ctx 7) 6 mem) (slot (esp - 24) i) =
      load mem (slot ctx (7 + i)) := by
  have hdistance : slot ctx 7 - (esp - 24) = ctx + 52 - esp := by
    have hend : ctx + 52 = slot ctx 7 + 24 := (slot_add ctx 7 6).symm
    rw [hend]
    abel
  have hwords : words (copyDown (esp - 24) (slot ctx 7) 6 mem) (esp - 24) 6 =
      words mem (slot ctx 7) 6 :=
    words_copyDown (n := 6) (by rw [hdistance]; exact hcopy) (by decide) (by decide) (Nat.le_refl 6)
  have hword := load_of_words hwords hi
  rw [getElem?_words hi, slot_add] at hword
  exact (Option.some.inj hword).symm

/-- The copy of the last words below the new stack pointer, which is loaded first. -/
theorem copied32 (t : Machine32) (hsp : t.sp = slot ctx 7) :
    ∃ regs, t.run ([.movFromSp .ebp, .load 24 .ebp .edi] ++ (copyCode 6 ++ [.leaSp (-24) .edi])) =
        { t with
          regs := regs
          sp := (contextAt32 t.mem ctx).esp - 24
          mem := copyDown ((contextAt32 t.mem ctx).esp - 24) (slot ctx 7) 6 t.mem } ∧
      ∀ r ∈ [Reg32.eax, .ebx, .ecx, .edx], regs r = t.regs r := by
  have hesp : slot ctx 7 + 24 = slot ctx 13 := slot_add ctx 7 6
  have hprepare : t.run [.movFromSp .ebp, .load 24 .ebp .edi] = { t with
      regs := Function.update (Function.update t.regs .ebp (slot ctx 7)) .edi
        (contextAt32 t.mem ctx).esp } := by
    simp only [Machine.run, List.foldl_cons, List.foldl_nil, Machine.exec, Machine.setReg,
      Function.update_self, hsp, hesp]
    rfl
  obtain ⟨v, hcopy⟩ := copyCode_eq 6 { t with
    regs := Function.update (Function.update t.regs .ebp (slot ctx 7)) .edi
      (contextAt32 t.mem ctx).esp }
  have hebp : Reg32.ebp ≠ .edi := by decide
  have hedi : Reg32.edi ≠ .esi := by decide
  simp only [Function.update_self, Function.update_of_ne hebp] at hcopy
  rw [Machine.run_append, hprepare, Machine.run_append, hcopy]
  refine ⟨Function.update (Function.update (Function.update t.regs .ebp (slot ctx 7)) .edi
    (contextAt32 t.mem ctx).esp) .esi v, ?_, ?_⟩
  · simp only [Machine.run, List.foldl_cons, List.foldl_nil, Machine.exec, Function.update_self,
      Function.update_of_ne hedi]
    rw [← BitVec.sub_eq_add_neg]
  · simp only [List.mem_cons, List.not_mem_nil, or_false]
    rintro r (rfl | rfl | rfl | rfl) <;> rfl

theorem kernelIret32_eq {c : Context32} (hc : contextAt32 t.mem ctx = c) (hsp : t.sp = slot ctx 2)
    (hds : t.ds = c.ds.setWidth 16) (hes : t.es = c.ds.setWidth 16)
    (hkernel : ¬User (c.cs.setWidth 16)) (hcopy : CopyApart ctx c.esp) :
    iret32 (t.run kernelIret32) =
      resumedKernel32 t c (copyDown (c.esp - 24) (slot ctx 7) 6 t.mem) := by
  have hcode : kernelIret32 = [.pop .eax, .pop .ebx, .pop .ecx, .pop .edx, .addSp 4] ++
    (([.movFromSp .ebp, .load 24 .ebp .edi] ++ (copyCode 6 ++ [.leaSp (-24) .edi])) ++
      [.pop .esi, .pop .edi, .pop .ebp]) := rfl
  obtain ⟨regs, flags, hrun, hregs⟩ := pops32 t hsp
  obtain ⟨regs', hrun', hregs'⟩ := copied32
    { t with regs := regs, sp := slot ctx 7, flags := flags } rfl
  subst hc
  have hloaded := fun i hi => load_copied (i := i) hcopy t.mem hi
  have hpops := popsIndex32 { t with
    regs := regs'
    sp := (contextAt32 t.mem ctx).esp - 24
    flags := flags
    mem := copyDown ((contextAt32 t.mem ctx).esp - 24) (slot ctx 7) 6 t.mem }
    (c := contextAt32 t.mem ctx) (hloaded 0 (by decide)) (hloaded 1 (by decide))
    (hloaded 2 (by decide)) fun r hr => (hregs' r hr).trans (hregs r hr)
  rw [hcode, Machine.run_append, hrun, Machine.run_append, hrun', hpops]
  unfold iret32
  simp only [slot_add]
  have hcs := hloaded 4 (by decide)
  have hsix : slot ((contextAt32 t.mem ctx).esp - 24) 6 = (contextAt32 t.mem ctx).esp :=
    slot_sub _ 6
  rw [if_neg (by rw [hcs]; exact hkernel), hcs, hloaded 3 (by decide), hloaded 5 (by decide), hsix,
    hds, hes]
  rfl

end OSLabs.Trap
