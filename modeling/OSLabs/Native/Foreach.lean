import OSLabs.Lib.Chain
import OSLabs.Lib.Fallible
import OSLabs.Native.Model

/-! # Loops over a list of page mappings

A loop that returns has found the end of its list. Over a finite list of user pages, both
loops of `amSwitch` are one sweep: every node gets the same flag and the host is changed
node by node.
-/

namespace OSLabs.Native

open OSLabs.Lib

variable {m m' : Machine} {nodes : Nat → Option PageMap} {p a : Nat} {q : Option Nat}
  {e : PageMap} {l : List Nat} {b : Bool} {fuel : Nat}

def nextOf (nodes : Nat → Option PageMap) (p : Nat) : Option Nat := (nodes p).bind (·.next)

theorem nextOf_of_node (h : nodes p = some e) : nextOf nodes p = e.next := by
  simp [nextOf, h]

theorem nextOf_update (e : PageMap) :
    nextOf (Function.update nodes p (some e)) = Function.update (nextOf nodes) p e.next := by
  funext x
  by_cases hx : x = p
  · simp [nextOf, hx]
  · simp [nextOf, hx]

/-- Writing a node without moving it keeps all links. -/
theorem nextOf_update_same (h : nodes p = some e) {e' : PageMap} (hnext : e'.next = e.next) :
    nextOf (Function.update nodes p (some e')) = nextOf nodes := by
  rw [nextOf_update, hnext, ← nextOf_of_node h, Function.update_eq_self]

theorem nodeAt_ok {m : Machine} (h : m.nodes p = some e) : nodeAt m p = .ok e := by
  simp [nodeAt, h]

theorem node_of_nodeAt {m : Machine} (h : nodeAt m p = .ok e) : m.nodes p = some e := by
  unfold nodeAt at h
  split at h
  next e' he =>
    cases h
    exact he
  next => cases h

/-! ## The two bodies -/

/-- What a body does to a node: it sets the flag to `b`, and the host becomes what `f` makes
of the node and the host. -/
def touch (b : Bool) (f : PageMap → (Nat → Option HostPage) → Nat → Option HostPage) (p : Nat)
    (e : PageMap) (m : Machine) : Machine :=
  { m with
    nodes := Function.update m.nodes p (some { e with isMapped := b })
    host := f e m.host }

def unmapHost (e : PageMap) (host : Nat → Option HostPage) : Nat → Option HostPage :=
  if e.isMapped then Function.update host e.va none else host

def mapHost (e : PageMap) (host : Nat → Option HostPage) : Nat → Option HostPage :=
  Function.update host e.va (some (pmemPage e.pa e.prot))

theorem unmapNode_eq (h : m.nodes p = some e) :
    unmapNode p m = .ok (touch false unmapHost p e m) := by
  simp only [unmapNode, nodeAt_ok h, bind, Except.bind]
  by_cases hmapped : e.isMapped = true
  · rw [if_pos hmapped, touch, unmapHost, if_pos hmapped]
    rfl
  · have he : { e with isMapped := false } = e := by
      cases e
      simp only [Bool.not_eq_true] at hmapped
      simp [hmapped]
    rw [if_neg hmapped, touch, unmapHost, if_neg hmapped, he, ← h, Function.update_eq_self]

theorem mapNode_eq (h : m.nodes p = some e) (huser : inRange e.va userSpace) :
    mapNode p m = .ok (touch true mapHost p e m) := by
  simp only [mapNode, nodeAt_ok h, bind, Except.bind, assert, if_pos huser]
  rfl

theorem nextOf_touch {f : PageMap → (Nat → Option HostPage) → Nat → Option HostPage}
    (h : m.nodes p = some e) : nextOf (touch b f p e m).nodes = nextOf m.nodes :=
  nextOf_update_same h rfl

theorem unmapNode_links (h : unmapNode p m = .ok m') : nextOf m'.nodes = nextOf m.nodes := by
  cases he : m.nodes p with
  | none => simp [unmapNode, nodeAt, he, bind, Except.bind] at h
  | some e =>
      rw [unmapNode_eq he] at h
      cases h
      exact nextOf_touch he

theorem mapNode_links (h : mapNode p m = .ok m') : nextOf m'.nodes = nextOf m.nodes := by
  cases he : m.nodes p with
  | none => simp [mapNode, nodeAt, he, bind, Except.bind] at h
  | some e =>
      by_cases huser : inRange e.va userSpace
      · rw [mapNode_eq he huser] at h
        cases h
        exact nextOf_touch he
      · simp [mapNode, nodeAt, he, bind, Except.bind, assert, huser] at h

/-! ## Loops that return -/

/-- A loop whose body keeps the links returns only from a finite list. -/
theorem listForeach_finite {body : Nat → Machine → Except Stop Machine}
    (hbody : ∀ {p m m'}, body p m = .ok m' → nextOf m'.nodes = nextOf m.nodes)
    (h : listForeach body fuel q m = .ok m') :
    (∃ l, Chain (nextOf m.nodes) q l) ∧ nextOf m'.nodes = nextOf m.nodes := by
  induction fuel generalizing q m with
  | zero =>
      cases q with
      | none =>
          simp only [listForeach, Except.ok.injEq] at h
          exact ⟨⟨[], .nil⟩, by rw [h]⟩
      | some p => simp [listForeach] at h
  | succ fuel ih =>
      cases q with
      | none =>
          simp only [listForeach, Except.ok.injEq] at h
          exact ⟨⟨[], .nil⟩, by rw [h]⟩
      | some p =>
          rcases bind_eq_ok.1 h with ⟨m₁, hm₁, h⟩
          rcases bind_eq_ok.1 h with ⟨pp, hpp, h⟩
          have hlinks := hbody hm₁
          have hpp := nextOf_of_node (node_of_nodeAt hpp)
          rcases ih h with ⟨⟨l, hl⟩, hsame⟩
          rw [hlinks] at hl hsame hpp
          rw [← hpp] at hl
          exact ⟨⟨p :: l, .cons hl⟩, hsame⟩

/-! ## Sweeps over a finite list -/

def flagged (b : Bool) (l : List Nat) (nodes : Nat → Option PageMap) (p : Nat) : Option PageMap :=
  if p ∈ l then (nodes p).map fun e => { e with isMapped := b } else nodes p

theorem flagged_some (h : nodes p = some e) :
    flagged b l nodes p = some { e with isMapped := if p ∈ l then b else e.isMapped } := by
  by_cases hp : p ∈ l
  · simp [flagged, hp, h]
  · simp [flagged, hp, h]

theorem flagged_none (h : nodes p = none) : flagged b l nodes p = none := by
  simp [flagged, h]

theorem nextOf_flagged : nextOf (flagged b l nodes) = nextOf nodes := by
  funext p
  cases h : nodes p with
  | none => rw [nextOf, nextOf, flagged_none h, h]
  | some e => rw [nextOf_of_node (flagged_some h), nextOf_of_node h]

theorem flagged_cons (h : nodes a = some e) :
    flagged b l (Function.update nodes a (some { e with isMapped := b })) =
      flagged b (a :: l) nodes := by
  funext p
  by_cases hp : p = a
  · subst hp
    simp [flagged, h]
  · simp [flagged, hp]

def sweep (f : PageMap → (Nat → Option HostPage) → Nat → Option HostPage)
    (nodes : Nat → Option PageMap) : List Nat → (Nat → Option HostPage) → Nat → Option HostPage
  | [], host => host
  | p :: l, host =>
    match nodes p with
    | some e => sweep f nodes l (f e host)
    | none => sweep f nodes l host

variable {f : PageMap → (Nat → Option HostPage) → Nat → Option HostPage}
  {host : Nat → Option HostPage} {va : Nat}

theorem sweep_cons (h : nodes p = some e) :
    sweep f nodes (p :: l) host = sweep f nodes l (f e host) := by
  simp [sweep, h]

theorem sweep_congr {nodes' : Nat → Option PageMap} (h : ∀ p ∈ l, nodes' p = nodes p) :
    sweep f nodes' l host = sweep f nodes l host := by
  induction l generalizing host with
  | nil => rfl
  | cons p l ih =>
      have hrest : ∀ host, sweep f nodes' l host = sweep f nodes l host :=
        fun host => ih fun x hx => h x (List.mem_cons_of_mem _ hx)
      simp only [sweep, h p List.mem_cons_self, hrest]

def UserNodes (nodes : Nat → Option PageMap) (l : List Nat) : Prop :=
  ∀ p ∈ l, ∃ e, nodes p = some e ∧ inRange e.va userSpace

/-- With fuel for the whole list, a loop is a sweep; with less it is still running. -/
theorem listForeach_sweep {body : Nat → Machine → Except Stop Machine}
    (hbody : ∀ {p m e}, m.nodes p = some e → inRange e.va userSpace →
      body p m = .ok (touch b f p e m))
    (hl : Chain (nextOf m.nodes) q l) (huser : UserNodes m.nodes l) :
    listForeach body fuel q m =
      if l.length ≤ fuel then
        .ok { m with nodes := flagged b l m.nodes, host := sweep f m.nodes l m.host }
      else .error .fuel := by
  induction l generalizing q m fuel with
  | nil =>
      cases hl
      have hle : ([] : List Nat).length ≤ fuel := Nat.zero_le fuel
      rw [if_pos hle]
      cases fuel with
      | zero => rfl
      | succ fuel => rfl
  | cons p l ih =>
      have hnot := (List.nodup_cons.1 hl.nodup).1
      rcases huser p List.mem_cons_self with ⟨e, he, hva⟩
      cases hl with
      | cons hrest =>
          rw [nextOf_of_node he] at hrest
          cases fuel with
          | zero => rfl
          | succ fuel =>
              have hsame : ∀ x ∈ l, (touch b f p e m).nodes x = m.nodes x := by
                intro x hx
                have hne : x ≠ p := by
                  intro heq
                  exact hnot (heq ▸ hx)
                exact Function.update_of_ne hne ..
              have hnode : (touch b f p e m).nodes p = some { e with isMapped := b } :=
                Function.update_self ..
              have hrest' : Chain (nextOf (touch b f p e m).nodes) e.next l := by
                rw [nextOf_touch he]
                exact hrest
              have huser' : UserNodes (touch b f p e m).nodes l := by
                intro x hx
                rw [hsame x hx]
                exact huser x (List.mem_cons_of_mem _ hx)
              simp only [listForeach, hbody he hva, nodeAt_ok hnode, bind, Except.bind]
              rw [ih hrest' huser', sweep_congr hsame, sweep_cons he]
              simp only [List.length_cons, Nat.add_le_add_iff_right]
              rw [← flagged_cons he]
              rfl

/-! ## What a sweep leaves on the host -/

theorem sweep_mapHost_flagged {l' : List Nat} :
    sweep mapHost (flagged b l' nodes) l host = sweep mapHost nodes l host := by
  induction l generalizing host with
  | nil => rfl
  | cons p l ih =>
      cases h : nodes p with
      | none => simp only [sweep, flagged_none h, h, ih]
      | some e =>
          rw [sweep_cons (flagged_some h), sweep_cons h, ih]
          rfl

/-- Pages are only cleared, and those of flagged nodes are. -/
theorem sweep_unmapHost_of_none (h : host va = none) : sweep unmapHost nodes l host va = none := by
  induction l generalizing host with
  | nil => exact h
  | cons p l ih =>
      cases he : nodes p with
      | none =>
          simp only [sweep, he]
          exact ih h
      | some e =>
          rw [sweep_cons he]
          apply ih
          unfold unmapHost
          split
          next =>
            by_cases hva : va = e.va
            · simp [hva]
            · simp [hva, h]
          next => exact h

theorem sweep_unmapHost (hp : p ∈ l) (h : nodes p = some e) (hmapped : e.isMapped = true) :
    sweep unmapHost nodes l host e.va = none := by
  induction l generalizing host with
  | nil => cases hp
  | cons a l ih =>
      cases hp with
      | head =>
          rw [sweep_cons h]
          apply sweep_unmapHost_of_none
          simp [unmapHost, hmapped]
      | tail _ hp =>
          cases ha : nodes a with
          | none =>
              simp only [sweep, ha]
              exact ih hp
          | some e' =>
              rw [sweep_cons ha]
              exact ih hp

theorem sweep_mapHost_of_not (h : ∀ p ∈ l, ∀ e, nodes p = some e → e.va ≠ va) :
    sweep mapHost nodes l host va = host va := by
  induction l generalizing host with
  | nil => rfl
  | cons p l ih =>
      have hrest := fun x hx => h x (List.mem_cons_of_mem _ hx)
      cases he : nodes p with
      | none =>
          simp only [sweep, he]
          exact ih hrest
      | some e =>
          rw [sweep_cons he, ih hrest]
          exact Function.update_of_ne (h p List.mem_cons_self e he).symm ..

theorem sweep_mapHost (hp : p ∈ l) (h : nodes p = some e)
    (honly : ∀ p' ∈ l, ∀ e', nodes p' = some e' → e'.va = e.va → p' = p) :
    sweep mapHost nodes l host e.va = some (pmemPage e.pa e.prot) := by
  induction l generalizing host with
  | nil => cases hp
  | cons a l ih =>
      have hrest := fun x hx => honly x (List.mem_cons_of_mem _ hx)
      by_cases hmem : p ∈ l
      · cases ha : nodes a with
        | none =>
            simp only [sweep, ha]
            exact ih hmem hrest
        | some e' =>
            rw [sweep_cons ha]
            exact ih hmem hrest
      · have hpa : p = a := (List.mem_cons.1 hp).resolve_right hmem
        subst hpa
        have hothers : ∀ x ∈ l, ∀ e', nodes x = some e' → e'.va ≠ e.va := by
          intro x hx e' he' hva
          exact hmem (hrest x hx e' he' hva ▸ hx)
        rw [sweep_cons h, sweep_mapHost_of_not hothers]
        exact Function.update_self ..

end OSLabs.Native
