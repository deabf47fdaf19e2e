import CS330.Memory.Coalesced

/-! # Runs that keep the areas coalesced

`vm_area_mprotect` joins the part of the range in its first area with what is in front of it, and
every self-call joins the next area with that one. It does not look at the flags of an area that
the range ends in when the area has them already. -/

namespace CS330

variable {H : Header} {P : Paging H} {c c' : ExecContext P} {l u a b e addr : Nat}
  {length k r : Int} {prot flags f : BitVec 32} {vms before rest front xs ys : List VmArea}
  {p q cur prev : VmArea}

/-! ## One activation of `vm_area_mprotect` -/

theorem joinNext_eq_none : joinNext cur rest prot = none ↔ StartsApart rest cur.vmEnd prot := by
  simp [joinNext, StartsApart, Option.filter_eq_none_iff, eq_comm (a := cur.vmEnd)]

theorem joinPrev_eq_none : joinPrev before cur prot = none ↔ EndsApart before cur.vmStart prot := by
  simp [joinPrev, EndsApart, Option.filter_eq_none_iff]

/-- An activation that finds its range covered and has room leaves the areas as they are, joins
what touches the changed area, or goes on behind it. -/
inductive Joins (c : ExecContext P) (prot : BitVec 32) (e : Nat) (before : List VmArea)
    (cur : VmArea) (rest : List VmArea) (addr : Nat) :
    Outcome (ProtectArgs P) (Int × ExecContext P) → Prop where
  | kept {res : Int × ExecContext P} : cur.accessFlags = prot → e ≤ cur.vmEnd →
      (cur.vmStart = addr → e < cur.vmEnd) → res.2.vmArea = c.vmArea →
      Joins c prot e before cur rest addr (.ret res)
  | joined {res : Int × ExecContext P} : e ≤ cur.vmEnd →
      (e < cur.vmEnd → cur.accessFlags ≠ prot) → Coalesced res.2.vmArea →
      Joins c prot e before cur rest addr (.ret res)
  | more (front : List VmArea) (prev : VmArea) {args : ProtectArgs P} : cur.vmEnd < e →
      args.current.vmArea = front ++ prev :: rest → Coalesced (front ++ [prev]) →
      Joins c prot e before cur rest addr (.call args)

section
variable (hv : ValidLength length)
  (E : Enters H c.vmArea prot addr length (addr + (roundUp length).toNat) before cur rest)
  (hcount : c.vmArea.length ≤ 128) (hlast : rest = [] → addr + (roundUp length).toNat ≤ cur.vmEnd)
  (hbefore : Coalesced before) (hstarts : StartsApart rest cur.vmEnd cur.accessFlags)
  (hrest : Coalesced rest)
include hv E hcount hlast hbefore hstarts hrest

/-- From inside an area the range is split off. -/
theorem protectInside_joins (hstart : cur.vmStart < addr)
    (hends : EndsApart before cur.vmStart cur.accessFlags) :
    Joins c prot (addr + (roundUp length).toNat) before cur rest addr
      (protectInside c prot before cur rest addr (roundUp length)) := by
  have hlt := H.end_lt
  obtain ⟨hr₁, hr₂⟩ := hv.roundUp
  have hreg := E.region.2
  have hadd : u64 (addr + roundUp length) = _ := hv.end_eq (by omega)
  have hroom := E.room
  rw [areasNeeded, if_pos hstart] at hroom
  simp only [protectInside, hadd]
  generalize addr + (roundUp length).toNat = e at *
  split
  next hkeep => exact .kept hkeep.1 hkeep.2 (by omega) rfl
  next hkeep =>
    split
    next hmid =>
      have hflags : cur.accessFlags ≠ prot := fun h => hkeep ⟨h, hmid.le⟩
      rw [if_neg hflags, if_pos hmid] at hroom
      rw [if_neg (by omega)]
      refine .joined hmid.le (fun _ => hflags) (coalesced_middle.mpr ⟨hbefore, hends, ?_, ?_⟩)
      · exact startsApart_cons.mpr fun _ => hflags.symm
      · refine coalesced_cons.mpr ⟨?_, coalesced_cons.mpr ⟨hstarts, hrest⟩⟩
        exact startsApart_cons.mpr fun _ => hflags
    next hmid =>
      split
      next hback =>
        have hflags : cur.accessFlags ≠ prot := fun h => hkeep ⟨h, hback.le⟩
        cases hn : joinNext cur rest prot with
        | none =>
          rw [if_neg hflags, if_neg hmid, hn, if_neg (by simp)] at hroom
          simp only
          rw [if_neg (by omega)]
          refine .joined hback.le (by omega) (coalesced_middle.mpr ⟨hbefore, hends, ?_, ?_⟩)
          · exact startsApart_cons.mpr fun _ => hflags.symm
          · exact coalesced_cons.mpr ⟨hback ▸ joinNext_eq_none.mp hn, hrest⟩
        | some next =>
          obtain ⟨ys, rfl, -, hnext⟩ := joinNext_eq_some hn
          refine .joined hback.le (by omega) (coalesced_middle.mpr ⟨hbefore, hends, ?_, ?_⟩)
          · exact startsApart_cons.mpr fun _ => hnext ▸ hflags.symm
          · exact coalesced_cons.mpr (coalesced_cons (p := next).mp hrest)
      next hback =>
        have hlt : cur.vmEnd < e := by omega
        rw [if_neg fun h => hlt.not_ge (hlast h)]
        split
        next hflags =>
          exact .more before cur hlt E.split (coalesced_middle.mpr ⟨hbefore, hends, by simp⟩)
        next hflags =>
          rw [if_neg hflags, if_neg hmid, if_neg fun h => hback h.1] at hroom
          rw [if_neg (by omega)]
          refine .more (before ++ [{ cur with vmEnd := addr }]) ⟨addr, cur.vmEnd, prot⟩ hlt
            (by simp) ?_
          rw [List.append_assoc]
          refine coalesced_middle.mpr ⟨hbefore, hends, ?_, by simp⟩
          exact startsApart_cons.mpr fun _ => Ne.symm hflags

/-- From its start on an area is joined with what is in front of it. -/
theorem protectFront_joins (hstart : cur.vmStart = addr) :
    Joins c prot (addr + (roundUp length).toNat) before cur rest addr
      (protectFront c prot before cur rest addr (roundUp length)) := by
  have hlt := H.end_lt
  obtain ⟨hr₁, hr₂⟩ := hv.roundUp
  have hreg := E.region.2
  have hadd : u64 (addr + roundUp length) = _ := hv.end_eq (by omega)
  have hroom := E.room
  rw [areasNeeded, if_neg hstart.not_lt] at hroom
  simp only [protectFront, hadd]
  generalize addr + (roundUp length).toNat = e at *
  subst hstart
  split
  next hfront =>
    split
    next hflags => exact .kept hflags hfront.le (fun _ => hfront) rfl
    next hflags =>
      have hchanged : Coalesced ({ cur with vmStart := e } :: rest) :=
        coalesced_cons.mpr ⟨hstarts, hrest⟩
      cases hp : joinPrev before cur prot with
      | none =>
        rw [if_neg hflags, hp, if_pos ⟨hfront, by simp⟩] at hroom
        simp only
        rw [if_neg (by omega)]
        refine .joined hfront.le (fun _ => hflags) (coalesced_middle.mpr ⟨hbefore, ?_, ?_, hchanged⟩)
        · exact joinPrev_eq_none.mp hp
        · exact startsApart_cons.mpr fun _ => hflags
      | some prev =>
        obtain ⟨xs, rfl, -, hprev⟩ := joinPrev_eq_some hp
        simp only [List.dropLast_concat]
        obtain ⟨hxs, hends, -⟩ := coalesced_middle.mp hbefore
        refine .joined hfront.le (fun _ => hflags) (coalesced_middle.mpr ⟨hxs, hends, ?_, hchanged⟩)
        exact startsApart_cons.mpr fun _ => hprev ▸ hflags
  next hfront =>
    split
    next hwhole =>
      have joined {res : Int × ExecContext P} (h : Coalesced res.2.vmArea) :
          Joins c prot e before cur rest cur.vmStart (.ret res) := .joined hwhole.le (by omega) h
      cases hp : joinPrev before cur prot with
      | none =>
        have hends := joinPrev_eq_none.mp hp
        cases hn : joinNext cur rest prot with
        | none =>
          exact joined (coalesced_middle.mpr ⟨hbefore, hends, joinNext_eq_none.mp hn, hrest⟩)
        | some next =>
          obtain ⟨ys, rfl, -, rfl⟩ := joinNext_eq_some hn
          exact joined (coalesced_middle.mpr ⟨hbefore, hends, coalesced_cons (p := next).mp hrest⟩)
      | some prev =>
        obtain ⟨xs, rfl, -, rfl⟩ := joinPrev_eq_some hp
        obtain ⟨hxs, hends, -⟩ := coalesced_middle.mp hbefore
        cases hn : joinNext cur rest prev.accessFlags with
        | none =>
          simp only [List.dropLast_concat]
          exact joined (coalesced_middle.mpr ⟨hxs, hends, joinNext_eq_none.mp hn, hrest⟩)
        | some next =>
          obtain ⟨ys, rfl, -, hnext⟩ := joinNext_eq_some hn
          simp only [List.dropLast_concat]
          exact joined (coalesced_middle.mpr ⟨hxs, hends, hnext ▸ coalesced_cons (p := next).mp hrest⟩)
    next hwhole =>
      have hlt : cur.vmEnd < e := by omega
      rw [if_neg fun h => hlt.not_ge (hlast h)]
      cases hp : joinPrev before cur prot with
      | none =>
        exact .more before { cur with accessFlags := prot } hlt rfl
          (coalesced_middle.mpr ⟨hbefore, joinPrev_eq_none.mp hp, by simp⟩)
      | some prev =>
        obtain ⟨xs, rfl, -⟩ := joinPrev_eq_some hp
        simp only [List.dropLast_concat]
        obtain ⟨hxs, hends, -⟩ := coalesced_middle.mp hbefore
        exact .more xs { prev with vmEnd := cur.vmEnd } hlt rfl
          (coalesced_middle.mpr ⟨hxs, hends, by simp⟩)

theorem protectBody_joins (hs : Sorted l c.vmArea H.mmapAreaEnd)
    (hends : cur.vmStart < addr → EndsApart before cur.vmStart cur.accessFlags) :
    Joins c prot (addr + (roundUp length).toNat) before cur rest addr
      (protectBody prot ⟨c, addr, length⟩) := by
  rw [protectBody_eq hs hv E.toAreaAt E.covered E.region hcount]
  split
  next hstart =>
    exact protectInside_joins hv E hcount hlast hbefore hstarts hrest hstart (hends hstart)
  next hstart =>
    exact protectFront_joins hv E hcount hlast hbefore hstarts hrest
      (Nat.le_antisymm E.start_le (Nat.le_of_not_lt hstart))

end

/-! ## The whole call -/

/-- The range ends inside an area that has the flags already. -/
def EndsInside (ys : List VmArea) (e : Nat) (prot : BitVec 32) : Prop :=
  ∃ q ∈ ys, q.vmStart < e ∧ e < q.vmEnd ∧ q.accessFlags = prot

theorem endsInside_cons : EndsInside (q :: ys) e prot ↔
    q.vmStart < e ∧ e < q.vmEnd ∧ q.accessFlags = prot ∨ EndsInside ys e prot := by
  simp [EndsInside]

theorem Sorted.not_endsInside (hs : Sorted a ys u) (h : e ≤ a) : ¬EndsInside ys e prot := by
  rintro ⟨q, hq, hlt, -⟩
  have := hs.bounds hq
  omega

theorem BehindInv.joins (I : BehindInv H l front prev ys prot k) (t : P.Table)
    (hr : Reaches ys prev.vmEnd k a e) (hc : Coalesced (front ++ [prev])) (hys : Coalesced ys) :
    ∃ cur rest, ys = cur :: rest ∧ cur.vmStart = prev.vmEnd ∧
      Joins (⟨front ++ prev :: ys, t⟩ : ExecContext P) prot (prev.vmEnd + (roundUp k).toNat)
        (front ++ [prev]) cur rest prev.vmEnd
        (protectBody prot ⟨⟨front ++ prev :: ys, t⟩, prev.vmEnd, k⟩) := by
  have hk := I.valid.le_roundUp
  obtain ⟨hcov, hle, hend⟩ := hr.covered (sorted_middle.mp I.sorted).2.2 I.valid
  obtain ⟨cur, rest, rfl, E⟩ := enters_behind I.sorted I.flags I.count I.valid
    (fun x hx hx' => hcov x hx (by omega)) ⟨I.start_le, hle.trans hend⟩
  obtain ⟨-, -, hstart⟩ := E.toAreaAt.behind I.sorted
  obtain ⟨hstarts, hrest⟩ := coalesced_cons.mp hys
  refine ⟨cur, rest, rfl, hstart, protectBody_joins I.valid E I.count ?_ hc hstarts hrest I.sorted
    fun hlt => (hlt.ne hstart).elim⟩
  rintro rfl
  cases hr with
  | last _ hle' => exact hle'
  | next _ _ hr => cases hr

/-- Self-calls that reach the end of the range leave the area it ends in alone if that one has the
flags already, and join all others. -/
theorem BehindInv.coalesced_iff {t : P.Table} {p : Nat}
    (h : Returns (protectBody prot) ⟨⟨front ++ prev :: ys, t⟩, p, k⟩ (r, c'))
    (I : BehindInv H l front prev ys prot k) (hr : Reaches ys p k a e) (hp : prev.vmEnd = p)
    (hc : Coalesced (front ++ [prev])) (hys : Coalesced ys) :
    Coalesced c'.vmArea ↔ ¬EndsInside ys e prot := by
  induction hr generalizing front prev with
  | @last b ys p k hb hle =>
    subst hp
    have hr : Reaches (b :: ys) prev.vmEnd k prev.vmEnd _ := .last hb hle
    obtain ⟨_, _, hcons, -, J⟩ := I.joins t hr hc hys
    obtain ⟨rfl, rfl⟩ := List.cons.inj hcons
    have hbehind := (sorted_cons.mp (sorted_middle.mp I.sorted).2.2).2.2
    generalize ho : protectBody prot ⟨⟨front ++ prev :: b :: ys, t⟩, prev.vmEnd, k⟩ = o at J
    rw [endsInside_cons]
    cases J with
    | kept hflags _ hlt hsame =>
      obtain rfl := (Returns.ret_iff ho).mp h
      obtain ⟨hpos, -⟩ := I.valid.roundUp
      refine iff_of_false (fun hc' => ?_) (not_not.mpr (.inl ⟨by omega, hlt hb, hflags⟩))
      rw [hsame, coalesced_middle, startsApart_cons] at hc'
      exact hc'.2.2.1 hb (hflags.trans I.flags.symm)
    | joined hle hflags hc' =>
      obtain rfl := (Returns.ret_iff ho).mp h
      refine iff_of_true hc' ?_
      rintro (⟨_, hlt, heq⟩ | hin)
      · exact hflags hlt heq
      · exact hbehind.not_endsInside hle hin
    | more _ _ hlt => omega
  | @next b ys p k a e hb hlt hr ih =>
    subst hp
    have hr' : Reaches (b :: ys) prev.vmEnd k a e := .next hb hlt hr
    obtain ⟨_, _, hcons, -, J⟩ := I.joins t hr' hc hys
    obtain ⟨rfl, rfl⟩ := List.cons.inj hcons
    have B := I.behind t
    generalize ho : protectBody prot ⟨⟨front ++ prev :: b :: ys, t⟩, prev.vmEnd, k⟩ = o at B J
    cases B with
    | refused hno => exact (hno _ _ hr').elim
    | last hcons _ hle =>
      cases hcons
      omega
    | @more _ prev' _ front' hcons _ _ _ hprev I' =>
      cases hcons
      cases J with
      | more front'' prev'' _ heq hc' =>
        obtain ⟨rfl, hcons⟩ := List.append_inj' heq rfl
        obtain ⟨rfl, -⟩ := List.cons.inj hcons
        have hsorted := (sorted_cons.mp (sorted_middle.mp I.sorted).2.2).2.2
        have hend := (hr.covered hsorted I'.valid).2.1
        obtain ⟨hpos, -⟩ := I'.valid.roundUp
        rw [ih ((Returns.call_iff ho).mp h) I' hprev hc' (coalesced_cons.mp hys).2, endsInside_cons]
        refine not_congr (or_iff_right fun hin => ?_).symm
        omega

/-- A call that sets flags behind its first area and ends inside an area that has them already. -/
def ProtectUnmerged (H : Header) (vms : List VmArea) (prot : BitVec 32) (addr : Nat)
    (length : Int) : Prop :=
  ∃ before cur rest, Enters H vms prot addr length (addr + byteLength length) before cur rest ∧
    cur.vmEnd < addr + byteLength length ∧ EndsInside rest (addr + byteLength length) prot

/-- A call that gets past its checks changes the areas from `cur` on. -/
theorem Enters.protectUnmerged_iff
    (E : Enters H vms prot addr length (addr + byteLength length) before cur rest)
    (hs : Sorted l vms u) : ProtectUnmerged H vms prot addr length ↔
      cur.vmEnd < addr + byteLength length ∧ EndsInside rest (addr + byteLength length) prot := by
  refine ⟨?_, fun h => ⟨_, _, _, E, h⟩⟩
  rintro ⟨_, _, _, E', h⟩
  obtain ⟨-, rfl, rfl⟩ := E.toAreaAt.unique E'.toAreaAt hs
  exact h

/-- Every returning call on whole pages: the areas stay coalesced unless the range ends inside an
area that is not joined. -/
theorem VmAreaMprotect.coalesced_iff (h : VmAreaMprotect c addr length prot r c')
    (I : ProtectInv l c length) (hal : Aligned c.vmArea) (haddr : 4096 ∣ addr)
    (hc : Coalesced c.vmArea) :
    Coalesced c'.vmArea ↔ ¬ProtectUnmerged H c.vmArea prot addr length := by
  by_cases hE : ∃ before cur rest,
    Enters H c.vmArea prot addr length (addr + byteLength length) before cur rest
  swap
  · refine iff_of_true ?_ fun ⟨_, _, _, E, _⟩ => hE ⟨_, _, _, E⟩
    cases h.outcome I with
    | refused => exact hc
    | last E => exact (hE ⟨_, _, _, E⟩).elim
    | more E => exact (hE ⟨_, _, _, E⟩).elim
    | failed E => exact (hE ⟨_, _, _, E⟩).elim
  obtain ⟨before, cur, rest, E⟩ := hE
  obtain ⟨hround, -, -, hdvd⟩ := I.valid.bytes
  obtain ⟨hpos, -⟩ := id I.valid
  have hle := I.valid.le_roundUp
  have hlt := E.lt_end
  have hcov : Covered c.vmArea addr (addr + byteLength length) :=
    E.covered.round hal (by omega) (Nat.dvd_add haddr hdvd) (by omega)
  have hlast : rest = [] → addr + byteLength length ≤ cur.vmEnd := by
    rintro rfl
    exact E.le_of_covered I.sorted hcov
  obtain ⟨hbefore, hends, hstarts, hrest⟩ := coalesced_middle.mp (E.split ▸ hc)
  have J := protectBody_joins I.valid E I.count hlast hbefore hstarts hrest I.sorted fun _ => hends
  have A := I.activation prot addr
  rw [E.protectUnmerged_iff I.sorted]
  generalize ho : protectBody prot ⟨c, addr, length⟩ = o at A J
  cases J with
  | kept _ hle _ hsame =>
    obtain rfl := (Returns.ret_iff ho).mp h
    exact iff_of_true (hsame ▸ hc) fun h => h.1.not_ge hle
  | joined hle _ hc' =>
    obtain rfl := (Returns.ret_iff ho).mp h
    exact iff_of_true hc' fun h => h.1.not_ge hle
  | more front prev hend heq hc' =>
    cases A with
    | @more _ _ front' _ prev' E' _ _ hprev hflags hpaint hcount =>
      obtain ⟨rfl, rfl, rfl⟩ := E'.toAreaAt.unique E.toAreaAt I.sorted
      obtain ⟨rfl, hcons⟩ := List.append_inj' heq rfl
      obtain ⟨rfl, -⟩ := List.cons.inj hcons
      change _ = protectRest c cur.vmEnd addr (roundUp length) (front' ++ prev' :: rest) at ho
      rw [protectRest_eq hlt.le hend I.valid] at ho
      have B := I.behindInv E hend hprev hflags hpaint hcount
      obtain ⟨a, hr⟩ := E.reaches I.sorted hal haddr I.valid hcov hend
      rw [B.coalesced_iff ((Returns.call_iff ho).mp h) hr hprev hc' hrest]
      exact not_congr (and_iff_right hend).symm

/-! ## Runs -/

/-- The address is 0, or a page of the region. -/
def PageOrZero (H : Header) (addr : Nat) : Prop :=
  addr = 0 ∨ 4096 ∣ addr ∧ H.mmapAreaStart ≤ addr ∧ addr < H.mmapAreaEnd

theorem PageOrZero.dvd (h : PageOrZero H addr) : 4096 ∣ addr := by
  rcases h with rfl | h
  · exact Nat.dvd_zero 4096
  · exact h.1

/-- Calls that edit the areas, on page-aligned addresses. -/
def MemCall.OnPage (H : Header) : MemCall → Prop
  | map addr _ _ _ => PageOrZero H addr
  | unmap addr _ => PageOrZero H addr
  | mprotect addr _ _ => PageOrZero H addr
  | pagefault _ _ => False

/-- The calls that leave areas apart which could be one. -/
def LeavesApart (H : Header) (vms : List VmArea) : MemCall → Prop
  | .map addr length prot flags =>
    vms.length < 128 ∧ Unmerged H vms prot flags (byteLength length) addr
  | .mprotect addr length prot => ProtectUnmerged H vms prot addr length
  | _ => False

/-- What holds in every state of a run of the other calls. -/
structure CoalescedInv (H : Header) (vms : List VmArea) : Prop extends AreasInv H 0 vms where
  aligned : Aligned vms
  coalesced : Coalesced vms

section
variable {call : MemCall} (h : call.Yields c r c') (hv : call.Valid) (hp : call.OnPage H)
  (I : CoalescedInv H c.vmArea)
include h hv hp I

theorem MemCall.Yields.aligned : Aligned c'.vmArea := by
  cases call with
  | map addr length prot flags =>
    obtain ⟨-, -, -, hdvd⟩ := hv.2.bytes
    exact (VmAreaMap.outcome h I.sorted (Nat.zero_le _) hv.2).aligned I.aligned hp.dvd hdvd
  | unmap addr length =>
    obtain ⟨hround, -, -, hdvd⟩ := hv.2.bytes
    rw [vmAreaUnmap_areas h I.count, hround]
    exact unmapLoop_aligned hp.dvd (by omega) I.aligned
  | mprotect addr length prot =>
    exact (VmAreaMprotect.sorted h I.sorted I.count hv.2).2.2 I.aligned hp.dvd
  | pagefault => exact hp.elim

theorem MemCall.Yields.coalesced_iff : Coalesced c'.vmArea ↔ ¬LeavesApart H c.vmArea call := by
  cases call with
  | map addr length prot flags => exact VmAreaMap.coalesced_iff h I.coalesced I.sorted hv.2
  | unmap addr length =>
    have hlt := hv.2.roundUp.2
    refine iff_of_true ?_ id
    rw [vmAreaUnmap_areas h I.count]
    change Coalesced ([] ++ _)
    exact unmapLoop_coalesced I.sorted H.end_lt (by omega) (by simp) I.coalesced
  | mprotect addr length prot =>
    exact VmAreaMprotect.coalesced_iff h ⟨I.sorted, I.count, hv.2⟩ I.aligned hp.dvd I.coalesced
  | pagefault => exact hp.elim

end

/-- In runs of calls that leave no areas apart the areas stay coalesced, and the next call keeps
them so exactly when it leaves none apart either. -/
theorem MemRun.coalesced {calls : List MemCall} (h0 : c.vmArea = [])
    (run : MemRun (fun vms call => call.OnPage H ∧ ¬LeavesApart H vms call) c calls c') :
    Coalesced c'.vmArea ∧ ∀ (call : MemCall) (r : Int) (c'' : ExecContext P), call.Valid →
      call.OnPage H → call.Yields c' r c'' →
      (Coalesced c''.vmArea ↔ ¬LeavesApart H c'.vmArea call) := by
  have I : CoalescedInv H c'.vmArea := by
    refine run.invariant (I := fun c => CoalescedInv H c.vmArea) ?_ ?_
    · rw [h0]
      exact ⟨⟨sorted_nil.mpr (Nat.zero_le _), by simp⟩, by simp [Aligned], coalesced_nil⟩
    · rintro c call c' I ⟨hv, ⟨hp, hapart⟩, r, h⟩
      exact ⟨h.areasInv hv I.toAreasInv, h.aligned hv hp I, (h.coalesced_iff hv hp I).mpr hapart⟩
  exact ⟨I.coalesced, fun _ _ _ hv hp h => h.coalesced_iff hv hp I⟩

theorem MemRun.coalesced_of_map :
    MemRun (fun vms call => call.OnPage .megabyte ∧ ¬LeavesApart .megabyte vms call) .fresh
        [.map 0 4096 1 0] ⟨[⟨2 ^ 20, 2 ^ 20 + 4096, 1⟩], CountingTable.empty⟩ ∧
      Coalesced [⟨2 ^ 20, 2 ^ 20 + 4096, 1⟩] ∧
      ∀ (call : MemCall) (r : Int) (c' : ExecContext (Paging.counting .megabyte)), call.Valid →
        call.OnPage .megabyte →
        call.Yields ⟨[⟨2 ^ 20, 2 ^ 20 + 4096, 1⟩], CountingTable.empty⟩ r c' →
        (Coalesced c'.vmArea ↔ ¬LeavesApart .megabyte [⟨2 ^ 20, 2 ^ 20 + 4096, 1⟩] call) := by
  have run : MemRun (fun vms call => call.OnPage .megabyte ∧ ¬LeavesApart .megabyte vms call) .fresh
      [.map 0 4096 1 0] ⟨[⟨2 ^ 20, 2 ^ 20 + 4096, 1⟩], CountingTable.empty⟩ :=
    .cons ⟨⟨by decide, by decide⟩, ⟨.inl rfl, fun h => not_unmerged_zero h.2⟩, _, map_fresh⟩ .nil
  have h0 : ExecContext.fresh.vmArea = [] := rfl
  exact ⟨run, MemRun.coalesced h0 run⟩

/-- A hint one page in front of the first area leaves two pages with the same flags apart. -/
theorem not_coalesced : ¬∀ {H : Header} {P : Paging H} {c c' : ExecContext P}
    {calls : List MemCall}, c.vmArea = [] → MemRun (fun _ call => call.OnPage H) c calls c' →
    Coalesced c'.vmArea := by
  intro h
  have first : VmAreaMap .fresh (2 ^ 20 + 4096) 4096 1 0 (2 ^ 20 + 4096)
      ⟨[⟨2 ^ 20 + 4096, 2 ^ 20 + 8192, 1⟩], CountingTable.empty⟩ := by
    refine Returns.of_run (n := 1) ?_
    simp [run, mapBody, mapHint, ExecContext.fresh, Header.megabyte, roundUp, u64, mapReturnNew,
      mapReturn, int64]
  have second : VmAreaMap (⟨[⟨2 ^ 20 + 4096, 2 ^ 20 + 8192, 1⟩], CountingTable.empty⟩ :
      ExecContext (Paging.counting .megabyte)) (2 ^ 20) 4096 1 0 (2 ^ 20)
      ⟨[⟨2 ^ 20, 2 ^ 20 + 4096, 1⟩, ⟨2 ^ 20 + 4096, 2 ^ 20 + 8192, 1⟩], CountingTable.empty⟩ := by
    refine Returns.of_run (n := 1) ?_
    simp [run, mapBody, mapHint, Header.megabyte, roundUp, u64, mapReturnNew, mapReturn, int64]
  have hpage {addr : Nat} (h : 4096 ∣ addr ∧ Header.megabyte.mmapAreaStart ≤ addr ∧
      addr < Header.megabyte.mmapAreaEnd) : PageOrZero .megabyte addr := .inr h
  have run : MemRun (fun _ call => call.OnPage .megabyte) .fresh
      [.map (2 ^ 20 + 4096) 4096 1 0, .map (2 ^ 20) 4096 1 0]
      ⟨[⟨2 ^ 20, 2 ^ 20 + 4096, 1⟩, ⟨2 ^ 20 + 4096, 2 ^ 20 + 8192, 1⟩], CountingTable.empty⟩ :=
    .cons ⟨⟨by decide, by decide⟩, hpage (by decide), _, first⟩
      (.cons ⟨⟨by decide, by decide⟩, hpage (by decide), _, second⟩ .nil)
  have := h rfl run
  simp at this

end CS330
