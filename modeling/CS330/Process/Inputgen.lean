import CS330.Lib.Decimal
import CS330.Lib.Prefix
import CS330.Process.Records
import Mathlib.Data.Fintype.Basic
import Mathlib.Data.List.Range

/-! # The generator of operation files

`inputgen.c` draws operations at random and writes each one to a binary file and, as a line of
text, to a second file. It remembers the keys that it has put in an array of `max_unique` cells. -/

namespace CS330

/-! ## A record as text -/

/-- What `create_put` writes to the text file. -/
def createPutText (id key : BitVec 64) (data : List UInt8) : List UInt8 :=
  decimal id.toNat ++ 32 :: (decimal key.toNat ++ 32 :: (decimal OpType.put.code ++
    32 :: (decimal data.length ++ 32 :: (data ++ [10]))))

/-- What `create_get_del` writes to the text file. -/
def createGetDelText (id key : BitVec 64) (op : OpType) : List UInt8 :=
  decimal id.toNat ++ 32 :: (decimal key.toNat ++ 32 :: (decimal op.code ++ 32 :: [10]))

theorem OpType.code_injective : Function.Injective OpType.code :=
  fun t t' h => Option.some.inj (by rw [← OpType.ofCode_code t, h, OpType.ofCode_code])

theorem toBytes_append_inj {n x y : Nat} {s t : List UInt8} (hx : x < 256 ^ n) (hy : y < 256 ^ n)
    (h : toBytes n x ++ s = toBytes n y ++ t) : x = y ∧ s = t := by
  obtain ⟨heq, hrest⟩ := List.append_inj h (by simp)
  exact ⟨by rw [← ofBytes_toBytes_of_lt hx, heq, ofBytes_toBytes_of_lt hy], hrest⟩

namespace Record

def line : Record → List UInt8
  | put id key data => createPutText id key data
  | get id key => createGetDelText id key .get
  | del id key => createGetDelText id key .del

def id : Record → BitVec 64
  | put id _ _ | get id _ | del id _ => id

def key : Record → BitVec 64
  | put _ key _ | get _ key | del _ key => key

/-- What follows the type in the text. -/
def lineRest : Record → List UInt8
  | put _ _ data => decimal data.1.length ++ 32 :: (data.1 ++ [10])
  | get .. | del .. => [10]

/-- What follows the type in the binary file. -/
def encodeRest : Record → List UInt8
  | put _ _ data => toBytes 4 data.1.length ++ data.1
  | get .. | del .. => []

variable {r r' : Record} {s t : List UInt8}

theorem line_eq (r : Record) : r.line = decimal r.id.toNat ++ 32 :: (decimal r.key.toNat ++
    32 :: (decimal r.opType.code ++ 32 :: r.lineRest)) := by
  cases r <;> rfl

theorem encode_eq (r : Record) : r.encode =
    toBytes 8 r.id.toNat ++ (toBytes 8 r.key.toNat ++ (toBytes 4 r.opType.code ++ r.encodeRest)) := by
  cases r <;> simp [encode, createPut, createGetDel, encodeRest, id, key, opType]

/-- Two records with the same id, key and type differ in their data only. -/
theorem ext_data (hid : r.id = r'.id) (hkey : r.key = r'.key) (htype : r.opType = r'.opType)
    (hdata : ∀ {i k d i' k' d'}, r = put i k d → r' = put i' k' d' → d = d') : r = r' := by
  cases r <;> cases r' <;> cases htype <;> cases hid <;> cases hkey
  · rw [hdata rfl rfl]
  · rfl
  · rfl

/-- A line can be split off the front of a text. -/
theorem line_prefixFree : PrefixFree line := by
  intro r r' s t h
  have hspace : ¬IsDigit 32 := by decide
  simp only [line_eq, List.append_assoc, List.cons_append] at h
  obtain ⟨hid, h⟩ := decimal_append_inj hspace h
  obtain ⟨hkey, h⟩ := decimal_append_inj hspace h
  obtain ⟨htype, h⟩ := decimal_append_inj hspace h
  refine ext_data (BitVec.eq_of_toNat_eq hid) (BitVec.eq_of_toNat_eq hkey)
    (OpType.code_injective htype) ?_
  rintro i k d i' k' d' rfl rfl
  simp only [lineRest, List.append_assoc, List.cons_append] at h
  obtain ⟨hlen, h⟩ := decimal_append_inj hspace h
  exact Subtype.ext (List.append_inj_left h hlen)

/-- A record can be split off the front of the binary file. -/
theorem encode_prefixFree : PrefixFree encode := by
  intro r r' s t h
  simp only [encode_eq, List.append_assoc] at h
  obtain ⟨hid, h⟩ := toBytes_append_inj r.id.isLt r'.id.isLt h
  obtain ⟨hkey, h⟩ := toBytes_append_inj r.key.isLt r'.key.isLt h
  obtain ⟨htype, h⟩ := toBytes_append_inj r.opType.code_lt r'.opType.code_lt h
  refine ext_data (BitVec.eq_of_toNat_eq hid) (BitVec.eq_of_toNat_eq hkey)
    (OpType.code_injective htype) ?_
  rintro i k d i' k' d' rfl rfl
  simp only [encodeRest, List.append_assoc] at h
  obtain ⟨hlen, h⟩ := toBytes_append_inj (d.2.trans_eq (by norm_num)) (d'.2.trans_eq (by norm_num)) h
  exact Subtype.ext (List.append_inj_left h hlen)

end Record

/-- The text and the binary file determine the records, and so each other. -/
theorem Record.files_injective (recs recs' : List Record) :
    (recs.flatMap line = recs'.flatMap line ↔ recs = recs') ∧
      (recs.flatMap encode = recs'.flatMap encode ↔ recs = recs') := by
  have hline (r : Record) : r.line ≠ [] := by simp [line_eq]
  have hencode (r : Record) : r.encode ≠ [] := fun h => by
    simpa [encode_eq] using congrArg List.length h
  exact ⟨(line_prefixFree.flatMap_injective hline).eq_iff,
    (encode_prefixFree.flatMap_injective hencode).eq_iff⟩

/-! ## The program -/

abbrev MANDATORY_PUTS : Nat := 100
abbrev PUT_FRESH_HIGH : Nat := 20 * 100
abbrev PUT_OVERWRITE_HIGH : Nat := PUT_FRESH_HIGH + 10 * 100
abbrev GET_SUCCESS_HIGH : Nat := PUT_OVERWRITE_HIGH + 50 * 100
abbrev GET_FAIL_HIGH : Nat := GET_SUCCESS_HIGH + 10 * 100
abbrev DEL_SUCCESS_HIGH : Nat := GET_FAIL_HIGH + 7 * 100

/-- What `rand` and `read_random_u64` give in one round. -/
structure Draw where
  prob : Nat
  keypos : Nat
  key : BitVec 64
  len : Nat
  ch : Nat → Nat

/-- The digits, the capital letters and the small letters. -/
def randChar (rand : Nat) : UInt8 :=
  let ch := rand % 62
  .ofNat (if ch < 10 then 48 + ch else if ch < 36 then 65 + (ch - 10) else 97 + (ch - 36))

/-- The text behind its length. -/
def generateRandText (draw : Draw) : List UInt8 :=
  (List.range (8 + draw.len % 25)).map fun ctr => randChar (draw.ch ctr)

/-- The variables of `main` and what the two files hold; `unique_ctr` is the length of
`unique_keys`. -/
structure InputGen where
  id : BitVec 64
  uniqueKeys : List (BitVec 64)
  bin : List UInt8
  txt : List UInt8

inductive InputGenError where
  /-- A write behind the end of `unique_keys`. -/
  | outOfBounds
  /-- `unique_ctr < max_unique` does not hold. -/
  | aborted
deriving DecidableEq, Repr

namespace InputGen

variable (maxUnique : BitVec 32) (g : InputGen) (draw : Draw)

/-- `create_put` and `++id`. -/
def put (key : BitVec 64) : InputGen where
  id := g.id + 1
  uniqueKeys := g.uniqueKeys
  bin := g.bin ++ createPut g.id key (generateRandText draw)
  txt := g.txt ++ createPutText g.id key (generateRandText draw)

/-- `create_get_del` and `++id`. -/
def getDel (key : BitVec 64) (op : OpType) : InputGen where
  id := g.id + 1
  uniqueKeys := g.uniqueKeys
  bin := g.bin ++ createGetDel g.id key op
  txt := g.txt ++ createGetDelText g.id key op

/-- `unique_keys[unique_ctr++] = key`. -/
def store (key : BitVec 64) : Except InputGenError InputGen :=
  if g.uniqueKeys.length < maxUnique.toNat then
    .ok { g with uniqueKeys := g.uniqueKeys ++ [key] }
  else .error .outOfBounds

/-- The key at a random place of `unique_keys`. -/
def pick : BitVec 64 := g.uniqueKeys.getD (draw.keypos % g.uniqueKeys.length) 0

/-- The assertions of this loop come before the counter is increased, and after the store they
cannot fail. -/
def mandatoryPut : Except InputGenError InputGen := do
  let ctr := g.uniqueKeys.length
  let g ← g.store maxUnique draw.key
  if ctr < maxUnique.toNat then return g.put draw draw.key else throw .aborted

def round : Except InputGenError InputGen :=
  let prob := draw.prob % 10000
  if prob < PUT_FRESH_HIGH then do
    let g ← g.store maxUnique draw.key
    if g.uniqueKeys.length < maxUnique.toNat then return g.put draw draw.key else throw .aborted
  else if prob < PUT_OVERWRITE_HIGH then return g.put draw (g.pick draw)
  else if prob < GET_SUCCESS_HIGH then return g.getDel (g.pick draw) .get
  else if prob < GET_FAIL_HIGH then return g.getDel draw.key .get
  else if prob < DEL_SUCCESS_HIGH then return g.getDel (g.pick draw) .del
  else return g.getDel draw.key .del

end InputGen

/-- `main` for new files. -/
def inputgen (totalops : BitVec 64) (maxUnique : BitVec 32) (draws : Nat → Draw) :
    Except InputGenError InputGen := do
  let g ← (List.range MANDATORY_PUTS).foldlM (fun g i => g.mandatoryPut maxUnique (draws i))
    ⟨1, [], [], []⟩
  (List.range (totalops - MANDATORY_PUTS).toNat).foldlM
    (fun g i => g.round maxUnique (draws (MANDATORY_PUTS + i))) g

/-! ## What is written -/

/-- The round puts a new key. -/
def Draw.Fresh (draw : Draw) : Prop := draw.prob % 10000 < PUT_FRESH_HIGH

instance (draw : Draw) : Decidable draw.Fresh := inferInstanceAs (Decidable (_ < _))

/-- How many of the first `n` rounds put a new key. -/
def freshCount (draws : Nat → Draw) (n : Nat) : Nat :=
  (List.range n).countP fun i => (draws (MANDATORY_PUTS + i)).Fresh

/-- A digit or a letter. -/
def IsAlnum (c : UInt8) : Prop :=
  48 ≤ c.toNat ∧ c.toNat ≤ 57 ∨ 65 ≤ c.toNat ∧ c.toNat ≤ 90 ∨ 97 ≤ c.toNat ∧ c.toNat ≤ 122

/-- Both files hold the records: numbered from 1 on, with keys that were drawn and texts of 8 to 32
letters and digits, and every key that is put is in `unique_keys`. -/
structure InputGen.Wrote (draws : Nat → Draw) (g : InputGen) (recs : List Record) : Prop where
  bin : g.bin = recs.flatMap Record.encode
  txt : g.txt = recs.flatMap Record.line
  id : g.id = BitVec.ofNat 64 (recs.length + 1)
  ids : recs.map Record.id = (List.range recs.length).map fun k => BitVec.ofNat 64 (k + 1)
  put {id key : BitVec 64} {data} (h : .put id key data ∈ recs) : key ∈ g.uniqueKeys ∧
    8 ≤ data.1.length ∧ data.1.length ≤ 32 ∧ ∀ c ∈ data.1, IsAlnum c
  drawn {r : Record} (h : r ∈ recs) : ∃ i, r.key = (draws i).key
  stored {key : BitVec 64} (h : key ∈ g.uniqueKeys) : ∃ i, key = (draws i).key

section
variable {maxUnique : BitVec 32} {g g' : InputGen} {draw : Draw} {draws : Nat → Draw}
  {recs : List Record} {r : Record} {key : BitVec 64} {op : OpType} {n i : Nat}

theorem isAlnum_randChar (rand : Nat) : IsAlnum (randChar rand) := by
  have hlt : rand % 62 < 62 := Nat.mod_lt _ (by decide)
  unfold IsAlnum randChar
  rw [UInt8.toNat_ofNat']
  split
  · omega
  · split <;> omega

theorem length_generateRandText (draw : Draw) :
    8 ≤ (generateRandText draw).length ∧ (generateRandText draw).length ≤ 32 := by
  have hlt : draw.len % 25 < 25 := Nat.mod_lt _ (by decide)
  rw [generateRandText, List.length_map, List.length_range]
  omega

theorem isAlnum_of_mem_generateRandText {c : UInt8} (h : c ∈ generateRandText draw) :
    IsAlnum c := by
  obtain ⟨ctr, -, rfl⟩ := List.mem_map.1 h
  exact isAlnum_randChar _

namespace InputGen

theorem Wrote.snoc (h : g.Wrote draws recs) (hid : r.id = g.id) (hid' : g'.id = g.id + 1)
    (hbin : g'.bin = g.bin ++ r.encode) (htxt : g'.txt = g.txt ++ r.line)
    (hkeys : g'.uniqueKeys = g.uniqueKeys) (hdrawn : ∃ i, r.key = (draws i).key)
    (hput : ∀ id key data, r = .put id key data → key ∈ g'.uniqueKeys ∧
      8 ≤ data.1.length ∧ data.1.length ≤ 32 ∧ ∀ c ∈ data.1, IsAlnum c) :
    g'.Wrote draws (recs ++ [r]) where
  bin := by rw [hbin, h.bin, List.flatMap_append, List.flatMap_singleton]
  txt := by rw [htxt, h.txt, List.flatMap_append, List.flatMap_singleton]
  id := by
    rw [hid', h.id, List.length_append, List.length_singleton]
    exact (BitVec.ofNat_add ..).symm
  ids := by
    rw [List.map_append, h.ids, List.length_append, List.length_singleton, List.range_succ,
      List.map_append, List.map_singleton, List.map_singleton, hid, h.id]
  put {id key data} hmem := by
    rcases List.mem_append.1 hmem with hmem | hmem
    · exact hkeys ▸ h.put hmem
    · exact hput id key data (List.mem_singleton.1 hmem).symm
  drawn hmem := by
    rcases List.mem_append.1 hmem with hmem | hmem
    · exact h.drawn hmem
    · exact List.mem_singleton.1 hmem ▸ hdrawn
  stored hkey := h.stored (hkeys ▸ hkey)

theorem Wrote.create_put (h : g.Wrote draws recs) (draw : Draw) (hkey : key ∈ g.uniqueKeys) :
    ∃ r, (g.put draw key).Wrote draws (recs ++ [r]) := by
  obtain ⟨hlow, hhigh⟩ := length_generateRandText draw
  refine ⟨.put g.id key ⟨generateRandText draw, by omega⟩,
    h.snoc rfl rfl rfl rfl rfl (h.stored hkey) ?_⟩
  rintro id key data ⟨⟩
  exact ⟨hkey, hlow, hhigh, fun c hc => isAlnum_of_mem_generateRandText hc⟩

theorem Wrote.create_get (h : g.Wrote draws recs) (hkey : ∃ i, key = (draws i).key) :
    ∃ r, (g.getDel key .get).Wrote draws (recs ++ [r]) :=
  ⟨.get g.id key, h.snoc rfl rfl rfl rfl rfl hkey nofun⟩

theorem Wrote.create_del (h : g.Wrote draws recs) (hkey : ∃ i, key = (draws i).key) :
    ∃ r, (g.getDel key .del).Wrote draws (recs ++ [r]) :=
  ⟨.del g.id key, h.snoc rfl rfl rfl rfl rfl hkey nofun⟩

theorem Wrote.store (h : g.Wrote draws recs) (i : Nat) :
    ({ g with uniqueKeys := g.uniqueKeys ++ [(draws i).key] } : InputGen).Wrote draws recs :=
  { h with
    put := fun hmem => ⟨List.mem_append_left _ (h.put hmem).1, (h.put hmem).2⟩
    stored := fun hkey => by
      rcases List.mem_append.1 hkey with hkey | hkey
      · exact h.stored hkey
      · exact ⟨i, List.mem_singleton.1 hkey⟩ }

/-! ## The rounds -/

theorem mandatoryPut_spec (maxUnique : BitVec 32) (i : Nat) (h : g.Wrote draws recs) :
    if g.uniqueKeys.length < maxUnique.toNat then
      ∃ g' r, g.mandatoryPut maxUnique (draws i) = .ok g' ∧ g'.Wrote draws (recs ++ [r]) ∧
        g'.uniqueKeys.length = g.uniqueKeys.length + 1
    else g.mandatoryPut maxUnique (draws i) = .error .outOfBounds := by
  split
  next hlt =>
    obtain ⟨r, hr⟩ := (h.store i).create_put (draws i) (List.mem_concat_self ..)
    refine ⟨_, r, ?_, hr, by simp [InputGen.put]⟩
    simp [mandatoryPut, InputGen.store, hlt]
  next hge =>
    simp [mandatoryPut, InputGen.store, hge]
    rfl

theorem pick_mem (hne : g.uniqueKeys ≠ []) : g.pick draw ∈ g.uniqueKeys := by
  have hlt : draw.keypos % g.uniqueKeys.length < g.uniqueKeys.length :=
    Nat.mod_lt _ (List.length_pos_of_ne_nil hne)
  rw [pick, List.getD_eq_getElem _ _ hlt]
  exact List.getElem_mem hlt

theorem round_of_not_fresh (maxUnique : BitVec 32) (h : g.Wrote draws recs) (hne : g.uniqueKeys ≠ [])
    (hfresh : ¬(draws i).Fresh) :
    ∃ g' r, g.round maxUnique (draws i) = .ok g' ∧ g'.Wrote draws (recs ++ [r]) ∧
      g'.uniqueKeys.length = g.uniqueKeys.length := by
  have hround : g.round maxUnique (draws i) = _ := if_neg hfresh
  rw [hround]
  split
  · obtain ⟨r, hr⟩ := h.create_put (draws i) (pick_mem hne)
    exact ⟨_, r, rfl, hr, rfl⟩
  split
  · obtain ⟨r, hr⟩ := h.create_get (h.stored (pick_mem hne))
    exact ⟨_, r, rfl, hr, rfl⟩
  split
  · obtain ⟨r, hr⟩ := h.create_get ⟨i, rfl⟩
    exact ⟨_, r, rfl, hr, rfl⟩
  split
  · obtain ⟨r, hr⟩ := h.create_del (h.stored (pick_mem hne))
    exact ⟨_, r, rfl, hr, rfl⟩
  · obtain ⟨r, hr⟩ := h.create_del ⟨i, rfl⟩
    exact ⟨_, r, rfl, hr, rfl⟩

theorem round_of_fresh (maxUnique : BitVec 32) (h : g.Wrote draws recs) (hfresh : (draws i).Fresh) :
    if maxUnique.toNat ≤ g.uniqueKeys.length then
      g.round maxUnique (draws i) = .error .outOfBounds
    else if maxUnique.toNat = g.uniqueKeys.length + 1 then
      g.round maxUnique (draws i) = .error .aborted
    else
      ∃ g' r, g.round maxUnique (draws i) = .ok g' ∧ g'.Wrote draws (recs ++ [r]) ∧
        g'.uniqueKeys.length = g.uniqueKeys.length + 1 := by
  have hround : g.round maxUnique (draws i) = _ := if_pos hfresh
  rw [hround]
  split
  next hfull =>
    rw [InputGen.store, if_neg (not_lt.2 hfull)]
    rfl
  next hroom =>
    rw [InputGen.store, if_pos (not_le.1 hroom)]
    split
    next hlast =>
      have hnot : ¬(g.uniqueKeys ++ [(draws i).key]).length < maxUnique.toNat := by simp [hlast]
      exact if_neg hnot
    next hmore =>
      have hlt : (g.uniqueKeys ++ [(draws i).key]).length < maxUnique.toNat := by
        rw [List.length_append, List.length_singleton]
        omega
      obtain ⟨r, hr⟩ := (h.store i).create_put (draws i) (List.mem_concat_self ..)
      exact ⟨_, r, if_pos hlt, hr, by simp [InputGen.put]⟩

end InputGen

/-- The first loop, stopped after `n` rounds. -/
def mandatoryPuts (maxUnique : BitVec 32) (draws : Nat → Draw) (n : Nat) :
    Except InputGenError InputGen :=
  (List.range n).foldlM (fun g i => g.mandatoryPut maxUnique (draws i)) ⟨1, [], [], []⟩

/-- The second loop, stopped after `n` rounds. -/
def rounds (maxUnique : BitVec 32) (draws : Nat → Draw) (g : InputGen) (n : Nat) :
    Except InputGenError InputGen :=
  (List.range n).foldlM (fun g i => g.round maxUnique (draws (MANDATORY_PUTS + i))) g

theorem mandatoryPuts_succ : mandatoryPuts maxUnique draws (n + 1) =
    (mandatoryPuts maxUnique draws n).bind fun g => g.mandatoryPut maxUnique (draws n) := by
  simp [mandatoryPuts, List.range_succ]
  rfl

theorem rounds_succ : rounds maxUnique draws g (n + 1) = (rounds maxUnique draws g n).bind
    fun g => g.round maxUnique (draws (MANDATORY_PUTS + n)) := by
  simp [rounds, List.range_succ]
  rfl

theorem mandatoryPuts_spec (maxUnique : BitVec 32) (draws : Nat → Draw) (n : Nat) :
    if n ≤ maxUnique.toNat then
      ∃ g recs, mandatoryPuts maxUnique draws n = .ok g ∧ g.Wrote draws recs ∧ recs.length = n ∧
        g.uniqueKeys.length = n
    else mandatoryPuts maxUnique draws n = .error .outOfBounds := by
  induction n with
  | zero =>
    rw [if_pos (Nat.zero_le _)]
    exact ⟨_, [], rfl, ⟨rfl, rfl, rfl, rfl, nofun, nofun, nofun⟩, rfl, rfl⟩
  | succ n ih =>
    by_cases hn : n ≤ maxUnique.toNat
    · rw [if_pos hn] at ih
      obtain ⟨g, recs, heq, hwrote, hlen, hkeys⟩ := ih
      have hput := InputGen.mandatoryPut_spec maxUnique n hwrote
      rw [mandatoryPuts_succ, heq]
      rw [hkeys] at hput
      by_cases hlt : n < maxUnique.toNat
      · rw [if_pos hlt] at hput
        obtain ⟨g', r, heq', hwrote', hkeys'⟩ := hput
        rw [if_pos (Nat.succ_le_iff.2 hlt)]
        exact ⟨g', _, heq', hwrote', by simp [hlen], hkeys'⟩
      · rw [if_neg hlt] at hput
        rwa [if_neg (by omega)]
    · rw [if_neg hn] at ih
      rw [if_neg (by omega), mandatoryPuts_succ, ih]
      rfl

theorem freshCount_succ : freshCount draws (n + 1) =
    freshCount draws n + if (draws (MANDATORY_PUTS + n)).Fresh then 1 else 0 := by
  simp [freshCount, List.range_succ, List.countP_append, List.countP_singleton]

/-- The second loop fails as soon as a new key fills `unique_keys`, or does not fit. -/
theorem rounds_spec (draws : Nat → Draw) (h : g.Wrote draws recs) (hlen : recs.length = MANDATORY_PUTS)
    (hkeys : g.uniqueKeys.length = MANDATORY_PUTS) (hle : MANDATORY_PUTS ≤ maxUnique.toNat)
    (n : Nat) :
    if freshCount draws n = 0 ∨ MANDATORY_PUTS + freshCount draws n < maxUnique.toNat then
      ∃ g' recs', rounds maxUnique draws g n = .ok g' ∧ g'.Wrote draws recs' ∧
        recs'.length = MANDATORY_PUTS + n ∧
        g'.uniqueKeys.length = MANDATORY_PUTS + freshCount draws n
    else rounds maxUnique draws g n =
      .error (if maxUnique.toNat = MANDATORY_PUTS then .outOfBounds else .aborted) := by
  induction n with
  | zero =>
    rw [if_pos (.inl rfl)]
    exact ⟨g, recs, rfl, h, hlen, hkeys⟩
  | succ n ih =>
    rw [freshCount_succ, rounds_succ]
    by_cases hok : freshCount draws n = 0 ∨
        MANDATORY_PUTS + freshCount draws n < maxUnique.toNat
    · rw [if_pos hok] at ih
      obtain ⟨g', recs', heq, hwrote, hlen', hkeys'⟩ := ih
      rw [heq]
      change if _ then ∃ g'' recs'', g'.round maxUnique (draws (MANDATORY_PUTS + n)) = _ ∧ _ else
        g'.round maxUnique (draws (MANDATORY_PUTS + n)) = _
      by_cases hfresh : (draws (MANDATORY_PUTS + n)).Fresh
      · have hround := InputGen.round_of_fresh maxUnique hwrote hfresh
        rw [hkeys'] at hround
        rw [if_pos hfresh]
        by_cases hfull : maxUnique.toNat ≤ MANDATORY_PUTS + freshCount draws n
        · rw [if_pos hfull] at hround
          rw [if_neg (by omega), hround, if_pos (by omega)]
        rw [if_neg hfull] at hround
        by_cases hlast : maxUnique.toNat = MANDATORY_PUTS + freshCount draws n + 1
        · rw [if_pos hlast] at hround
          rw [if_neg (by omega), hround, if_neg (by omega)]
        · rw [if_neg hlast] at hround
          obtain ⟨g'', r, heq', hwrote', hkeys''⟩ := hround
          rw [if_pos (by omega)]
          refine ⟨g'', _, heq', hwrote', ?_, hkeys''.trans (Nat.add_assoc ..)⟩
          rw [List.length_append, hlen', List.length_singleton, Nat.add_assoc]
      · have hpos : 0 < MANDATORY_PUTS := by decide
        have hne : g'.uniqueKeys ≠ [] := List.ne_nil_of_length_pos (by omega)
        obtain ⟨g'', r, heq', hwrote', hkeys''⟩ :=
          InputGen.round_of_not_fresh maxUnique hwrote hne hfresh
        rw [if_neg hfresh, Nat.add_zero, if_pos hok]
        refine ⟨g'', _, heq', hwrote', ?_, hkeys''.trans hkeys'⟩
        rw [List.length_append, hlen', List.length_singleton, Nat.add_assoc]
    · rw [if_neg hok] at ih
      rw [if_neg (by split <;> omega), ih]
      rfl

/-- The keys of the `PUT`s. -/
def putKeys (recs : List Record) : List (BitVec 64) :=
  (recs.filter (·.opType = .put)).map Record.key

theorem InputGen.Wrote.card_putKeys_le (h : g.Wrote draws recs) :
    (putKeys recs).toFinset.card ≤ g.uniqueKeys.length := by
  refine (Finset.card_le_card fun key hkey => ?_).trans (List.toFinset_card_le _)
  obtain ⟨r, hr, rfl⟩ := List.mem_map.1 (List.mem_toFinset.1 hkey)
  obtain ⟨hr, hput⟩ := List.mem_filter.1 hr
  rw [List.mem_toFinset]
  cases r with
  | put => exact (h.put hr).1
  | get | del => simp [Record.opType] at hput

theorem inputgen_eq (totalops : BitVec 64) (maxUnique : BitVec 32) (draws : Nat → Draw) :
    inputgen totalops maxUnique draws = (mandatoryPuts maxUnique draws MANDATORY_PUTS).bind
      fun g => rounds maxUnique draws g (totalops - MANDATORY_PUTS).toNat := rfl

end

end CS330
