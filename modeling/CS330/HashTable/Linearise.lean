import CS330.HashTable.Counts
import CS330.HashTable.Serial
import Mathlib.Data.Set.Card

/-! # The order in which operations take effect

Operations on one table take effect one after another: a `PUT` when it writes its slot, the others
when they have seen their last slot. For each key this is the order in which they begin, and the
answers are those of the finite map. -/

namespace CS330

variable {T : Nat} [NeZero T] {h h' : HashTable T} {m m' : KvMap} {key : BitVec 64} {ret : Int}
  {op op' record : Operation} {pc pc' : VisitPc T}

/-- What a thread has of a record: the pointer `data` is read with a `PUT` only, and the operation
itself writes what a `GET` delivers. -/
structure Operation.Matches (record op : Operation) : Prop where
  id_eq : op.id = record.id
  key_eq : op.key = record.key
  type_eq : op.opType = record.opType
  put_eq : record.opType = .put → op = record

/-- What a key is bound to, and the answer, depend on the record alone. -/
theorem KvStep.of_matches (hm : record.Matches op) (hk : KvStep m ⟨op, ret, op'⟩ m') :
    ∃ record', KvStep m ⟨record, ret, record'⟩ m' ∧ record'.answer ret = op'.answer ret := by
  obtain ⟨ret₁, record', m₁, hk₁⟩ := exists_kvStep m record
  have hnext : kvNext (m op.key) op = kvNext (m record.key) record := by
    rw [kvNext, kvNext, hm.type_eq, hm.key_eq]
    cases htype : record.opType with
    | put => rw [hm.put_eq htype]
    | get | del => rfl
  have hresult : kvResult (m op.key) op = kvResult (m record.key) record := by
    rw [kvResult, kvResult, hm.type_eq, hm.key_eq]
  obtain rfl : m₁ = m' := by
    rw [hk.next, hk₁.next]
    dsimp only
    rw [hnext, hm.key_eq]
  have heq : (⟨record, ret₁, record'⟩ : HashCall).answer = (⟨op, ret, op'⟩ : HashCall).answer := by
    rw [hk.answer, hk₁.answer]
    dsimp only
    rw [hresult, hm.id_eq]
  obtain rfl : ret₁ = ret := congrArg (·.2.1) heq
  exact ⟨record', hk₁, heq⟩

omit [NeZero T] in
theorem VisitEffect.eq_of_put (E : VisitEffect h m op pc op' pc' m') (hop : op.opType = .put) :
    op' = op := by
  cases E with
  | quiet _ heq | overwrites heq => exact heq
  | answers _ _ hk =>
    cases hk with
    | put => rfl
    | hit hop' | miss hop' | delete hop' | bogus hop' => cases hop.symm.trans hop'

/-- The ids of the operations on a key, in order. -/
def idsOn (key : BitVec 64) (ops : List Operation) : List (BitVec 64) := (opsOn key ops).map (·.id)

theorem idsOn_append {ops ops' : List Operation} :
    idsOn key (ops ++ ops') = idsOn key ops ++ idsOn key ops' := by
  rw [idsOn, opsOn_append, List.map_append, idsOn, idsOn]

theorem idsOn_singleton : idsOn key [op] = if op.key = key then [op.id] else [] := by
  rw [idsOn, opsOn_singleton]
  split <;> rfl

variable {ι : Type*} [DecidableEq ι] {s : TableSystem ι T} {t : ι}

/-- The calls `done` have taken effect, in this order, and have led to the map `m`. The operations
`began` have begun and `results` have been returned; all of them match records. -/
structure Linearised (records began : List Operation) (results : List (Operation × Int))
    (s : TableSystem ι T) (done : List HashCall) (m : KvMap) : Prop where
  trace : Trace KvStep (fun _ => none) done m
  stores : Stores s.shared m
  mem_records : ∀ call ∈ done, call.op ∈ records
  matching : ∀ t op pc, s.pc t = some (op, pc) →
    ∃ record ∈ records, record.Matches op ∧ record.key ≠ 0
  knows : ∀ t op pc, s.pc t = some (op, pc) → s.shared.Knows op pc
  /-- The one operation on a key that has begun but has not taken effect. -/
  pending : ∀ t op pc, s.pc t = some (op, pc) → pc.answer = none →
    idsOn op.key began = idsOn op.key (done.map (·.op)) ++ [op.id]
  settled : ∀ key, (∀ t op pc, s.pc t = some (op, pc) → pc.answer = none → op.key ≠ key) →
    idsOn key began = idsOn key (done.map (·.op))
  answered : ∀ t op pc ret, s.pc t = some (op, pc) → pc.answer = some ret →
    op.answer ret ∈ done.map HashCall.answer
  returned : ∀ result ∈ results, result.1.answer result.2 ∈ done.map HashCall.answer
  stored : ∀ t op, s.pc t = some (op, .insertUsed) → ∃ i, (s.shared.entry i).key = op.key

namespace Linearised

variable {records began : List Operation} {results : List (Operation × Int)} {done : List HashCall}

omit [DecidableEq ι] in
theorem init : Linearised records [] [] (TableSystem.init : TableSystem ι T) [] fun _ => none where
  trace := .nil
  stores := .init
  mem_records := nofun
  matching _ _ _ ht := nomatch ht
  knows _ _ _ ht := nomatch ht
  pending _ _ _ ht := nomatch ht
  settled _ _ := rfl
  answered _ _ _ _ ht := nomatch ht
  returned := nofun
  stored _ _ ht := nomatch ht

/-- An operation begins on a key that no other thread is at. -/
theorem begin (L : Linearised records began results s done m) (hpc : s.pc t = none)
    (hmatch : ∃ record ∈ records, record.Matches op ∧ record.key ≠ 0)
    (hone : ∀ t' op' pc', s.pc t' = some (op', pc') → op'.key ≠ op.key) :
    Linearised records (began ++ [op]) results
      ⟨s.shared, Function.update s.pc t (some (op, .call))⟩ done m := by
  have hidle {c : ι} {op' : Operation} {pc' : VisitPc T} (hc : s.pc c = some (op', pc')) :
      c ≠ t := by
    rintro rfl
    cases hpc.symm.trans hc
  constructor
  case trace => exact L.trace
  case stores => exact L.stores
  case mem_records => exact L.mem_records
  case matching =>
    intro c op' pc' hc
    rcases update_eq_iff.1 hc with ⟨-, ⟨⟩⟩ | ⟨-, hc⟩
    · exact hmatch
    · exact L.matching c op' pc' hc
  case knows =>
    intro c op' pc' hc
    rcases update_eq_iff.1 hc with ⟨-, ⟨⟩⟩ | ⟨-, hc⟩
    · trivial
    · exact L.knows c op' pc' hc
  case pending =>
    intro c op' pc' hc hanswer
    rw [idsOn_append, idsOn_singleton]
    rcases update_eq_iff.1 hc with ⟨-, ⟨⟩⟩ | ⟨-, hc⟩
    · rw [if_pos rfl, L.settled op.key fun t' op' pc' ht' _ => hone t' op' pc' ht']
    · rw [if_neg (hone c op' pc' hc).symm, List.append_nil]
      exact L.pending c op' pc' hc hanswer
  case settled =>
    intro key hkey
    have hne : op.key ≠ key := hkey t op .call (Function.update_self ..) rfl
    rw [idsOn_append, idsOn_singleton, if_neg hne, List.append_nil]
    refine L.settled key fun c op' pc' hc => hkey c op' pc' ?_
    exact (Function.update_of_ne (hidle hc) ..).trans hc
  case answered =>
    intro c op' pc' ret hc hanswer
    rcases update_eq_iff.1 hc with ⟨-, ⟨⟩⟩ | ⟨-, hc⟩
    · cases hanswer
    · exact L.answered c op' pc' ret hc hanswer
  case returned => exact L.returned
  case stored =>
    intro c op' hc
    rcases update_eq_iff.1 hc with ⟨-, ⟨⟩⟩ | ⟨-, hc⟩
    exact L.stored c op' hc

/-- An operation returns. -/
theorem finish (L : Linearised records began results s done m)
    (hpc : s.pc t = some (op, .returned ret)) :
    Linearised records began (results ++ [(op, ret)]) ⟨s.shared, Function.update s.pc t none⟩ done
      m := by
  have hold {c : ι} {op' : Operation} {pc' : VisitPc T}
      (hc : Function.update s.pc t none c = some (op', pc')) : s.pc c = some (op', pc') := by
    rcases update_eq_iff.1 hc with ⟨-, ⟨⟩⟩ | ⟨-, hc⟩
    exact hc
  constructor
  case trace => exact L.trace
  case stores => exact L.stores
  case mem_records => exact L.mem_records
  case matching => exact fun c op' pc' hc => L.matching c op' pc' (hold hc)
  case knows => exact fun c op' pc' hc => L.knows c op' pc' (hold hc)
  case pending => exact fun c op' pc' hc => L.pending c op' pc' (hold hc)
  case settled =>
    intro key hkey
    refine L.settled key fun c op' pc' hc hanswer => hkey c op' pc' ?_ hanswer
    refine update_eq_iff.2 (.inr ⟨?_, hc⟩)
    rintro rfl
    cases hpc.symm.trans hc
    cases hanswer
  case answered => exact fun c op' pc' ret hc => L.answered c op' pc' ret (hold hc)
  case returned =>
    intro result hmem
    rcases List.mem_append.1 hmem with hmem | hmem
    · exact L.returned result hmem
    · rw [List.mem_singleton.1 hmem]
      exact L.answered t op _ ret hpc rfl
  case stored => exact fun c op' hc => L.stored c op' (hold hc)

/-! ### A step of an operation -/

/-- The operations still match their records. -/
theorem matching_visit (L : Linearised records began results s done m)
    (hpc : s.pc t = some (op, pc)) (hv : CS330.visit s.shared op pc = some (h', op', pc'))
    (hput : op.opType = .put → op' = op) (c : ι) (op₁ : Operation) (pc₁ : VisitPc T)
    (hc : Function.update s.pc t (some (op', pc')) c = some (op₁, pc₁)) :
    ∃ record ∈ records, record.Matches op₁ ∧ record.key ≠ 0 := by
  rcases update_eq_iff.1 hc with ⟨-, ⟨⟩⟩ | ⟨-, hc⟩
  · obtain ⟨hid, hkey, htype⟩ := same_record_of_visit hv
    obtain ⟨record, hrecord, hmatch, hrkey⟩ := L.matching t op pc hpc
    refine ⟨record, hrecord, ⟨hid.trans hmatch.id_eq, hkey.trans hmatch.key_eq,
      htype.trans hmatch.type_eq, fun hop => ?_⟩, hrkey⟩
    rw [hput (hmatch.type_eq.trans hop), hmatch.put_eq hop]
  · exact L.matching c op₁ pc₁ hc

omit [DecidableEq ι] in
theorem key_ne (L : Linearised records began results s done m) (hpc : s.pc t = some (op, pc)) :
    op.key ≠ 0 := by
  obtain ⟨record, -, hmatch, hrkey⟩ := L.matching t op pc hpc
  exact hmatch.key_eq ▸ hrkey

/-- What the other threads know survives the step. -/
theorem knows_visit (L : Linearised records began results s done m) (hone : s.OnePerKey)
    (hpc : s.pc t = some (op, pc)) (hv : CS330.visit s.shared op pc = some (h', op', pc'))
    (K' : h'.Knows op' pc') (c : ι) (op₁ : Operation) (pc₁ : VisitPc T)
    (hc : Function.update s.pc t (some (op', pc')) c = some (op₁, pc₁)) : h'.Knows op₁ pc₁ := by
  rcases update_eq_iff.1 hc with ⟨-, ⟨⟩⟩ | ⟨hne, hc⟩
  · exact K'
  · have hkeys : op₁.key ≠ op.key := fun heq => hne (hone c t op₁ op pc₁ pc hc hpc heq)
    exact (L.knows c op₁ pc₁ hc).spares
      ((VisitChange.of_visit hv).spares (L.key_ne hpc) (L.key_ne hc) hkeys)

/-- A key that waits for the counter stays in the table. -/
theorem stored_visit (L : Linearised records began results s done m) (hT : T < 2 ^ 32)
    (hfree : ∃ i, ¬s.shared.Taken i) (hone : s.OnePerKey) (hpc : s.pc t = some (op, pc))
    (hv : CS330.visit s.shared op pc = some (h', op', pc')) (c : ι) (op₁ : Operation)
    (hc : Function.update s.pc t (some (op', pc')) c = some (op₁, .insertUsed)) :
    ∃ i, (h'.entry i).key = op₁.key := by
  have hcase := VisitCase.of_visit (L.knows t op pc hpc) hT hfree hv
  rcases update_eq_iff.1 hc with ⟨-, ⟨⟩⟩ | ⟨hne, hc⟩
  · obtain ⟨-, hkey, -⟩ := same_record_of_visit hv
    exact hkey ▸ hcase.stored
  · obtain ⟨i, hi⟩ := L.stored c op₁ hc
    have hkeys : op₁.key ≠ op.key := fun heq => hne (hone c t op₁ op _ pc hc hpc heq)
    exact ⟨i, (hcase.keeps (hi ▸ L.key_ne hc) (hi ▸ hkeys)).trans hi⟩

section
variable
  (hmatching : ∀ c op₁ pc₁, Function.update s.pc t (some (op', pc')) c = some (op₁, pc₁) →
    ∃ record ∈ records, record.Matches op₁ ∧ record.key ≠ 0)
  (hknows : ∀ c op₁ pc₁, Function.update s.pc t (some (op', pc')) c = some (op₁, pc₁) →
    h'.Knows op₁ pc₁)
  (hstored : ∀ c op₁, Function.update s.pc t (some (op', pc')) c = some (op₁, .insertUsed) →
    ∃ i, (h'.entry i).key = op₁.key)
include hmatching hknows hstored

/-- The step does not take effect. -/
theorem quiet (L : Linearised records began results s done m) (hpc : s.pc t = some (op, pc))
    (S' : Stores h' m) (hanswer : pc'.answer = pc.answer) (hop : op' = op) :
    Linearised records began results ⟨h', Function.update s.pc t (some (op', pc'))⟩ done m := by
  subst hop
  constructor
  case trace => exact L.trace
  case stores => exact S'
  case mem_records => exact L.mem_records
  case matching => exact hmatching
  case knows => exact hknows
  case pending =>
    intro c op₁ pc₁ hc hnone
    rcases update_eq_iff.1 hc with ⟨-, ⟨⟩⟩ | ⟨-, hc⟩
    · exact L.pending t op' pc hpc (hanswer ▸ hnone)
    · exact L.pending c op₁ pc₁ hc hnone
  case settled =>
    intro key hnone
    refine L.settled key fun c op₁ pc₁ hc hanswer₁ => ?_
    by_cases hct : c = t
    · subst hct
      obtain ⟨rfl, rfl⟩ := Prod.mk.inj (Option.some.inj (hpc.symm.trans hc))
      exact hnone c op' pc' (Function.update_self ..) (hanswer.trans hanswer₁)
    · exact hnone c op₁ pc₁ ((Function.update_of_ne hct ..).trans hc) hanswer₁
  case answered =>
    intro c op₁ pc₁ ret hc hret
    rcases update_eq_iff.1 hc with ⟨-, ⟨⟩⟩ | ⟨-, hc⟩
    · exact L.answered t op' pc ret hpc (hanswer ▸ hret)
    · exact L.answered c op₁ pc₁ ret hc hret
  case returned => exact L.returned
  case stored => exact hstored

/-- The step takes effect, as the call of the record. -/
theorem takeEffect (L : Linearised records began results s done m) (hone : s.OnePerKey)
    (hpc : s.pc t = some (op, pc)) (S' : Stores h' m') (hnone : pc.answer = none)
    (hsome : pc'.answer = some ret) (hk : KvStep m ⟨op, ret, op'⟩ m') :
    ∃ call, Linearised records began results ⟨h', Function.update s.pc t (some (op', pc'))⟩
      (done ++ [call]) m' := by
  obtain ⟨record, hrecord, hmatch, -⟩ := L.matching t op pc hpc
  obtain ⟨record', hk', hsame⟩ := KvStep.of_matches hmatch hk
  have hmap : (done ++ [(⟨record, ret, record'⟩ : HashCall)]).map (·.op) =
      done.map (·.op) ++ [record] := by simp
  have hold {answer} (hmem : answer ∈ done.map HashCall.answer) :
      answer ∈ (done ++ [(⟨record, ret, record'⟩ : HashCall)]).map HashCall.answer := by
    rw [List.map_append]
    exact List.mem_append_left _ hmem
  refine ⟨⟨record, ret, record'⟩, ?_⟩
  constructor
  case trace => exact L.trace.snoc hk'
  case stores => exact S'
  case mem_records =>
    intro call hmem
    rcases List.mem_append.1 hmem with hmem | hmem
    · exact L.mem_records call hmem
    · rwa [List.mem_singleton.1 hmem]
  case matching => exact hmatching
  case knows => exact hknows
  case pending =>
    intro c op₁ pc₁ hc hnone₁
    rcases update_eq_iff.1 hc with ⟨-, ⟨⟩⟩ | ⟨hne, hc⟩
    · cases hsome.symm.trans hnone₁
    · have hkeys : op₁.key ≠ op.key := fun heq => hne (hone c t op₁ op pc₁ pc hc hpc heq)
      rw [hmap, idsOn_append, idsOn_singleton, if_neg (hmatch.key_eq ▸ hkeys.symm),
        List.append_nil]
      exact L.pending c op₁ pc₁ hc hnone₁
  case settled =>
    intro key hkey₁
    rw [hmap, idsOn_append, idsOn_singleton, ← hmatch.key_eq, ← hmatch.id_eq]
    by_cases heq : op.key = key
    · rw [if_pos heq, ← heq]
      exact L.pending t op pc hpc hnone
    · rw [if_neg heq, List.append_nil]
      refine L.settled key fun c op₁ pc₁ hc hnone₁ => ?_
      by_cases hct : c = t
      · subst hct
        obtain ⟨rfl, rfl⟩ := Prod.mk.inj (Option.some.inj (hpc.symm.trans hc))
        exact heq
      · exact hkey₁ c op₁ pc₁ ((Function.update_of_ne hct ..).trans hc) hnone₁
  case answered =>
    intro c op₁ pc₁ ret₁ hc hret
    rcases update_eq_iff.1 hc with ⟨-, ⟨⟩⟩ | ⟨-, hc⟩
    · obtain rfl := Option.some.inj (hsome.symm.trans hret)
      rw [List.map_append, ← hsame]
      exact List.mem_append_right _ (List.mem_singleton_self _)
    · exact hold (L.answered c op₁ pc₁ ret₁ hc hret)
  case returned => exact fun result hmem => hold (L.returned result hmem)
  case stored => exact hstored

end

/-- An operation takes a step. -/
theorem visit (L : Linearised records began results s done m) (hT : T < 2 ^ 32)
    (hfree : ∃ i, ¬s.shared.Taken i) (hone : s.OnePerKey) (hpc : s.pc t = some (op, pc))
    (hv : visit s.shared op pc = some (h', op', pc')) :
    ∃ done' m', Linearised records began results
      ⟨h', Function.update s.pc t (some (op', pc'))⟩ done' m' := by
  obtain ⟨m', S', K', E⟩ := L.stores.visit (L.knows t op pc hpc) hT (L.key_ne hpc) hv
  have hmatching := L.matching_visit hpc hv E.eq_of_put
  have hknows := L.knows_visit hone hpc hv K'
  have hstored := L.stored_visit hT hfree hone hpc hv
  cases E with
  | quiet hanswer hop hm =>
    subst hm
    exact ⟨done, m', quiet hmatching hknows hstored L hpc S' hanswer hop⟩
  | answers hnone hsome hk =>
    obtain ⟨call, L'⟩ := takeEffect hmatching hknows hstored L hone hpc S' hnone hsome hk
    exact ⟨_, m', L'⟩
  | overwrites _ htaken =>
    obtain ⟨i, hi⟩ := hfree
    exact (hi (htaken i)).elim

omit [DecidableEq ι] in
/-- On each key the calls that have taken effect are the first operations that have begun. -/
theorem initial_began (L : Linearised records began results s done m) (key : BitVec 64) :
    idsOn key (done.map (·.op)) <+: idsOn key began := by
  by_cases hpending : ∃ t op pc, s.pc t = some (op, pc) ∧ pc.answer = none ∧ op.key = key
  · obtain ⟨t, op, pc, hpc, hnone, rfl⟩ := hpending
    rw [L.pending t op pc hpc hnone]
    exact List.prefix_append ..
  · rw [L.settled key fun t op pc hpc hnone heq => hpending ⟨t, op, pc, hpc, hnone, heq⟩]

end Linearised

/-- Records with different ids are determined by their ids. -/
theorem initial_of_ids {records ops ops' : List Operation}
    (hids : (records.map (·.id)).Nodup) (h : ops ⊆ records) (h' : ops' ⊆ records)
    (hinitial : ops.map (·.id) <+: ops'.map (·.id)) : ops <+: ops' := by
  induction ops generalizing ops' with
  | nil => exact List.nil_prefix
  | cons op ops ih =>
    obtain _ | ⟨op', ops'⟩ := ops'
    · simp at hinitial
    rw [List.map_cons, List.map_cons, List.cons_prefix_cons] at hinitial
    obtain ⟨hop, hops⟩ := List.cons_subset.1 h
    obtain ⟨hop', hops'⟩ := List.cons_subset.1 h'
    obtain rfl := List.inj_on_of_nodup_map hids hop hop' hinitial.1
    exact List.cons_prefix_cons.2 ⟨rfl, ih hops hops' hinitial.2⟩

/-- The keys of a map are as many as the keys in the table. -/
theorem Stores.stored_eq_ncard (S : Stores h m) : h.stored = {key | m key ≠ none}.ncard := by
  have himage : {key | m key ≠ none} =
      (fun i => (h.entry i).key) '' {i | (h.entry i).key ≠ 0} := by
    ext key
    constructor
    · intro hm
      obtain ⟨hkey, i, rfl⟩ := S.complete key hm
      exact ⟨i, hkey, rfl⟩
    · rintro ⟨i, hi, rfl⟩
      exact fun hm => by cases hm.symm.trans (S.sound i hi)
  have hinj : Set.InjOn (fun i => (h.entry i).key) {i | (h.entry i).key ≠ 0} :=
    fun i hi j _ heq => S.unique i j hi heq
  rw [himage, hinj.ncard_image, HashTable.stored_eq_card, Set.ncard_eq_toFinset_card']
  simp

end CS330
