import Castle.Http.Hpack.Reading

/-!
# The decoder's dynamic table

The decoder holds the dynamic table of the representations it has read.
-/

namespace Castle.Http.Hpack

open EvictingList

variable {cap : DecoderCapacity} {σ : Type}

def DynamicEntry.field (e : DynamicEntry) : Field := ⟨e.name, e.value⟩

/-- The fields of the first `n` slots. -/
def slotFields (slots : List DynamicEntry) (n : ℕ) : List Field :=
  (slots.take n).map DynamicEntry.field

/-- The slots that are in use hold the entries of the table, and the byte counts are theirs. -/
structure Decoder.Agrees (d : Decoder cap) (t : Table) : Prop where
  fields : slotFields d.entries d.entryCount = t.entries
  bytes : ∀ e ∈ d.entries.take d.entryCount, e.bytes = entrySize e.field
  slots : d.entries.length = cap.maxDynamicEntries
  count : d.entryCount ≤ cap.maxDynamicEntries
  tableBytes : d.tableBytes = total entrySize t.entries
  fits : d.tableBytes ≤ d.allowedTableBytes
  allowed : d.allowedTableBytes = t.limit
  limit : d.allowedTableBytes ≤ cap.maxDynamicTableBytes

/-- The table of a new connection. -/
def Table.init (max : ℕ) : Table where
  entries := []
  limit := max

theorem slotFields_succ {slots : List DynamicEntry} {n : ℕ} {e : DynamicEntry}
    (h : slots[n]? = some e) : slotFields slots (n + 1) = slotFields slots n ++ [e.field] := by
  rw [slotFields, List.take_add_one, h, List.map_append]
  rfl

theorem slotFields_length {slots : List DynamicEntry} {n : ℕ} (h : n ≤ slots.length) :
    (slotFields slots n).length = n := by
  rw [slotFields, List.length_map, List.length_take]
  omega

theorem slotFields_getElem? (slots : List DynamicEntry) {n i : ℕ} (h : i < n) :
    (slotFields slots n)[i]? = slots[i]?.map DynamicEntry.field := by
  rw [slotFields, List.getElem?_map, List.getElem?_take_of_lt h]

theorem evictWhile_eq {slots : List DynamicEntry} (evict : ℕ → ℕ → Bool) (limit : ℕ) {n bytes : ℕ}
    (hn : n ≤ slots.length) (hbytes : ∀ e ∈ slots.take n, e.bytes = entrySize e.field)
    (htotal : bytes = total entrySize (slotFields slots n))
    (hevict : ∀ m b, m ≤ n → (evict m b = true ↔ limit < b)) :
    ∃ m ≤ n, slotFields slots m = evictTo entrySize limit (slotFields slots n) ∧
      evictWhile slots evict n bytes = some (m, total entrySize (slotFields slots m)) := by
  induction n generalizing bytes with
  | zero =>
    refine ⟨0, Nat.le_refl _, ?_, ?_⟩
    · rw [evictTo_of_le (Nat.zero_le _)]
    · rw [evictWhile, htotal]
  | succ n ih =>
    obtain ⟨e, he⟩ : ∃ e, slots[n]? = some e := ⟨_, List.getElem?_eq_getElem hn⟩
    have hsplit := slotFields_succ he
    rw [evictWhile]
    split
    next hover =>
      rw [hevict _ _ (Nat.le_refl _), htotal] at hover
      have hmem : e ∈ slots.take (n + 1) := by
        rw [List.take_add_one, he]
        simp
      have hsize := hbytes e hmem
      have hrest : bytes - e.bytes = total entrySize (slotFields slots n) := by
        rw [htotal, hsplit, total_append, hsize]
        simp
      have hbytes' : ∀ e' ∈ slots.take n, e'.bytes = entrySize e'.field := by
        intro e' he'
        refine hbytes e' ?_
        rw [List.take_add_one]
        exact List.mem_append_left _ he'
      obtain ⟨m, hm, hfields, hrun⟩ := ih (by omega) hbytes' hrest fun m b hm => hevict m b (by omega)
      refine ⟨m, by omega, ?_, ?_⟩
      · rw [hsplit] at hover ⊢
        rw [hfields, evictTo_concat hover]
      · rw [he]
        exact hrun
    next hfit =>
      rw [hevict _ _ (Nat.le_refl _), htotal, not_lt] at hfit
      refine ⟨n + 1, Nat.le_refl _, ?_, ?_⟩
      · rw [evictTo_of_le hfit]
      · rw [htotal]

theorem shiftUp_eq {slots : List DynamicEntry} {n : ℕ} (hn : n < slots.length) :
    ∃ slots', shiftUp n slots = some slots' ∧ slots'.length = slots.length ∧
      (∀ i < n, slots'[i + 1]? = slots[i]?) ∧ ∀ i > n, slots'[i]? = slots[i]? := by
  induction n generalizing slots with
  | zero => exact ⟨slots, rfl, rfl, fun i hi => absurd hi (Nat.not_lt_zero i), fun i _ => rfl⟩
  | succ n ih =>
    obtain ⟨e, he⟩ : ∃ e, slots[n]? = some e := ⟨_, List.getElem?_eq_getElem (Nat.lt_of_succ_lt hn)⟩
    have hn' : n < (slots.set (n + 1) e).length := by
      rw [List.length_set]
      exact Nat.lt_of_succ_lt hn
    obtain ⟨slots', hrun, hlen, hlow, hhigh⟩ := ih hn'
    rw [List.length_set] at hlen
    refine ⟨slots', ?_, hlen, ?_, ?_⟩
    · rw [shiftUp, he, Option.bind_eq_bind, Option.bind_some, if_pos hn]
      exact hrun
    · intro i hi
      by_cases hlast : i = n
      · rw [hlast, hhigh _ (Nat.lt_succ_self n), List.getElem?_set_self hn, he]
      · rw [hlow i (by omega), List.getElem?_set_ne (by omega)]
    · intro i hi
      rw [hhigh i (by omega), List.getElem?_set_ne (by omega)]

theorem entrySize_ge (field : Field) : 32 ≤ entrySize field := Nat.le_add_left _ _

theorem count_lt_maxDynamicEntries {slots : List DynamicEntry} {n : ℕ} (hn : n ≤ slots.length)
    (h : total entrySize (slotFields slots n) ≤ cap.maxDynamicTableBytes) :
    n < cap.maxDynamicEntries := by
  have hmul := length_mul_le fun field (_ : field ∈ slotFields slots n) => entrySize_ge field
  rw [slotFields_length hn] at hmul
  rw [DecoderCapacity.maxDynamicEntries]
  omega

namespace Decoder

variable {d : Decoder cap} {t : Table}

theorem init_agrees (cap : DecoderCapacity) :
    (init cap).Agrees (.init cap.maxDynamicTableBytes) where
  fields := rfl
  bytes := by simp [init]
  slots := by simp [init]
  count := Nat.zero_le _
  tableBytes := rfl
  fits := Nat.zero_le _
  allowed := rfl
  limit := Nat.le_refl _

theorem Agrees.clearDynamicTable (h : d.Agrees t) :
    d.clearDynamicTable.Agrees (.init cap.maxDynamicTableBytes) where
  fields := rfl
  bytes := by simp [Decoder.clearDynamicTable, evictAll]
  slots := h.slots
  count := Nat.zero_le _
  tableBytes := rfl
  fits := Nat.zero_le _
  allowed := rfl
  limit := Nat.le_refl _

theorem Agrees.lookup_eq (h : d.Agrees t) {index : ℕ} (hindex : index ≠ 0) :
    d.lookup index = some (t.field index) := by
  have hcount := h.count
  rw [lookup, Table.field, if_neg hindex]
  split
  next hstatic =>
    have hwrap : (index + (2 ^ 64 - 1)) % 2 ^ 64 = index - 1 := by omega
    have hlt : index - 1 < staticTable.length := by
      rw [show staticTable.length = 61 from rfl]
      omega
    rw [hwrap, List.getElem?_eq_getElem hlt]
    rfl
  · rw [← h.fields]
    split
    next hout =>
      rw [List.getElem?_eq_none]
      rw [slotFields_length (by rw [h.slots]; exact hcount)]
      exact hout
    next hin =>
      have hlt : index - 62 < d.entries.length := by
        rw [h.slots]
        omega
      rw [slotFields_getElem? _ (by omega), List.getElem?_eq_getElem hlt]
      rfl

theorem Agrees.evictToLimit (h : d.Agrees t) {size : ℕ} (hsize : size ≤ cap.maxDynamicTableBytes) :
    ∃ d' : Decoder cap, Decoder.evictToLimit { d with allowedTableBytes := size } = some d' ∧
      d'.Agrees (t.resize size) := by
  have hslots : d.entryCount ≤ d.entries.length := h.slots ▸ h.count
  have hbytes : d.tableBytes = total entrySize (slotFields d.entries d.entryCount) := by
    rw [h.fields, h.tableBytes]
  obtain ⟨m, hm, hfields, hrun⟩ := evictWhile_eq (fun _ bytes => decide (bytes > size))
    size hslots h.bytes hbytes fun _ b _ => decide_eq_true_iff
  have htable : slotFields d.entries m = (t.resize size).entries := by
    rw [hfields, h.fields]
    rfl
  refine ⟨{ d with entryCount := m, tableBytes := total entrySize (slotFields d.entries m),
                   allowedTableBytes := size }, ?_, ?_⟩
  · rw [Decoder.evictToLimit, hrun]
    rfl
  · exact
      { fields := htable
        bytes := fun e he => h.bytes e (List.take_subset_take_left _ hm he)
        slots := h.slots
        count := hm.trans h.count
        tableBytes := congrArg (total entrySize) htable
        fits := by
          rw [hfields]
          exact total_evictTo_le _ _
        allowed := rfl
        limit := hsize }

theorem Agrees.cons (h : d.Agrees t) {tail : List DynamicEntry} {m : ℕ} (hm : m < cap.maxDynamicEntries)
    (hm' : m ≤ d.entryCount) (field : Field) (hlen : tail.length + 1 = d.entries.length)
    (htail : tail.take m = d.entries.take m)
    (hfit : total entrySize (slotFields d.entries m) + entrySize field ≤ d.allowedTableBytes) :
    Agrees
      ({ d with entries := ⟨field.name, field.value, entrySize field⟩ :: tail
                entryCount := m + 1
                tableBytes := total entrySize (slotFields d.entries m) + entrySize field } :
        Decoder cap)
      { t with entries := field :: slotFields d.entries m } where
  fields := by
    rw [slotFields, List.take_succ_cons, htail, List.map_cons]
    rfl
  bytes := by
    intro e he
    rw [List.take_succ_cons, htail, List.mem_cons] at he
    rcases he with rfl | he
    · rfl
    · exact h.bytes e (List.take_subset_take_left _ hm' he)
  slots := hlen.trans h.slots
  count := hm
  tableBytes := by
    rw [total_cons]
    exact Nat.add_comm _ _
  fits := hfit
  allowed := h.allowed
  limit := h.limit

theorem Agrees.insert (h : d.Agrees t) (name value : Bytes) :
    ∃ d', d.insert name value = some d' ∧ d'.Agrees (t.insert ⟨name, value⟩) := by
  have hsize : 32 + name.length + value.length = entrySize ⟨name, value⟩ := by
    rw [entrySize, Nat.add_assoc, Nat.add_comm]
  have hslots : d.entryCount ≤ d.entries.length := h.slots ▸ h.count
  have hbytes : d.tableBytes = total entrySize (slotFields d.entries d.entryCount) := by
    rw [h.fields, h.tableBytes]
  rw [Decoder.insert, hsize, Table.insert, EvictingList.insert, ← h.allowed]
  dsimp only
  split
  next hbig =>
    exact ⟨_, rfl,
      { fields := rfl
        bytes := by simp [evictAll]
        slots := h.slots
        count := Nat.zero_le _
        tableBytes := rfl
        fits := Nat.zero_le _
        allowed := rfl
        limit := h.limit }⟩
  next hsmall =>
    have hroom : d.entryCount < cap.maxDynamicEntries := by
      refine count_lt_maxDynamicEntries hslots ?_
      rw [← hbytes]
      exact h.fits.trans h.limit
    obtain ⟨m, hm, hfields, hrun⟩ := evictWhile_eq
      (fun count tableBytes =>
        decide (tableBytes > d.allowedTableBytes - entrySize ⟨name, value⟩) ||
          decide (count = cap.maxDynamicEntries))
      (d.allowedTableBytes - entrySize ⟨name, value⟩) hslots h.bytes hbytes (by
        intro m b hm
        have hne : m ≠ cap.maxDynamicEntries := by omega
        simp [hne])
    have hfit : total entrySize (slotFields d.entries m) ≤
        d.allowedTableBytes - entrySize ⟨name, value⟩ := by
      rw [hfields]
      exact total_evictTo_le _ _
    have hm' : m < d.entries.length := by
      rw [h.slots]
      omega
    obtain ⟨slots', hshift, hlen, hlow, -⟩ := shiftUp_eq hm'
    obtain ⟨first, tail, rfl⟩ : ∃ first tail, slots' = first :: tail :=
      List.exists_cons_of_length_pos (by omega)
    have htail : tail.take m = d.entries.take m := by
      refine List.ext_getElem? fun i => ?_
      by_cases hi : i < m
      · rw [List.getElem?_take_of_lt hi, List.getElem?_take_of_lt hi, ← hlow i hi,
          List.getElem?_cons_succ]
      · rw [List.getElem?_take_eq_none (by omega), List.getElem?_take_eq_none (by omega)]
    have hagrees := h.cons (by omega) hm ⟨name, value⟩ hlen htail (by omega)
    rw [h.fields] at hfields
    rw [hfields, h.allowed] at hagrees
    refine ⟨_, ?_, h.allowed ▸ hagrees⟩
    rw [hrun, hfields, Option.bind_eq_bind, Option.bind_some]
    dsimp only
    rw [hshift]
    rfl

/-- All fields, one after the other, as long as each of them is added. -/
def addFields (add : σ → Bytes → Bytes → Status × σ) : List Field → σ → Option σ
  | [], output => some output
  | field :: fields, output =>
    match add output field.name field.value with
    | (.ok, output) => addFields add fields output
    | _ => none

theorem addFields_append (add : σ → Bytes → Bytes → Status × σ) (fields fields' : List Field)
    (output : σ) : addFields add (fields ++ fields') output =
      (addFields add fields output).bind (addFields add fields') := by
  induction fields generalizing output with
  | nil => rfl
  | cons field fields ih =>
    rw [List.cons_append, addFields, addFields]
    split
    · exact ih _
    · rfl

theorem addFields_single {add : σ → Bytes → Bytes → Status × σ} {field : Field} {output output' : σ}
    (h : add output field.name field.value = (.ok, output')) :
    addFields add [field] output = some output' := by
  rw [addFields, h]
  rfl

variable (add : σ → Bytes → Bytes → Status × σ)

/-- A pass that goes on has read a representation; one that does not has left the decoder alone. -/
structure Reads (d : Decoder cap) (t : Table) (input : Bytes) (output : σ) (pass : Pass cap σ) :
    Prop where
  ok : pass.status = .ok → ∃ rep t' fields, representation input = some (rep, pass.rest) ∧
    t.apply cap.maxDynamicTableBytes rep = some (t', fields) ∧ pass.decoder.Agrees t' ∧
    addFields add fields output = some pass.output
  failed : pass.status ≠ .ok → pass.decoder = d

theorem Reads.of_failed {input : Bytes} {output : σ} {pass : Pass cap σ} (hstatus : pass.status ≠ .ok)
    (hd : pass.decoder = d) : Reads add d t input output pass where
  ok := fun hok => absurd hok hstatus
  failed := fun _ => hd

theorem Agrees.decodeIndexed (h : d.Agrees t) {c : UInt8} (hc : 128 ≤ c.toNat)
    (s : Bytes) (output : σ) : ∃ pass, d.decodeIndexed add (c :: s) output = some pass ∧
      Reads add d t (c :: s) output pass := by
  rw [Decoder.decodeIndexed]
  generalize hread : readInteger 7 (c :: s) = read
  obtain ⟨result, rest, index⟩ := read
  dsimp only
  split
  · exact ⟨_, rfl, .of_failed add (by simp) rfl⟩
  next hok =>
    simp only [ne_eq, Bool.or_eq_true, decide_eq_true_eq, not_or, not_not] at hok
    obtain ⟨rfl, hindex⟩ := hok
    rw [h.lookup_eq hindex, Option.bind_eq_bind, Option.bind_some]
    cases hfield : t.field index with
    | none => exact ⟨_, rfl, .of_failed add (by simp) rfl⟩
    | some field =>
      refine ⟨_, rfl, ?_, fun _ => rfl⟩
      intro hstatus
      refine ⟨.indexed index, t, [field], ?_, ?_, h, addFields_single (Prod.ext hstatus rfl)⟩
      · rw [representation, if_pos hc, readInteger_ok hread]
        rfl
      · rw [Table.apply, hfield]
        rfl

theorem Agrees.decodeSizeUpdate (h : d.Agrees t) {c : UInt8} (hc : 32 ≤ c.toNat)
    (hc' : c.toNat < 64) (s : Bytes) (sawField : Bool) (output : σ) : ∃ pass, d.decodeSizeUpdate
    (c :: s) sawField output = some pass ∧ Reads add d t (c :: s) output pass := by
  rw [Decoder.decodeSizeUpdate]
  split
  · exact ⟨_, rfl, .of_failed add (by simp) rfl⟩
  · generalize hread : readInteger 5 (c :: s) = read
    obtain ⟨result, rest, size⟩ := read
    dsimp only
    split
    · exact ⟨_, rfl, .of_failed add (by simp) rfl⟩
    next hok =>
      simp only [ne_eq, Bool.or_eq_true, decide_eq_true_eq, not_or, not_not, not_lt] at hok
      obtain ⟨rfl, hsize⟩ := hok
      obtain ⟨d', hd', hagrees⟩ := h.evictToLimit hsize
      rw [hd', Option.bind_eq_bind, Option.bind_some]
      refine ⟨_, rfl, ?_, fun hne => absurd rfl hne⟩
      intro _
      refine ⟨.sizeUpdate size, t.resize size, [], ?_, ?_, hagrees, rfl⟩
      · rw [representation, if_neg (by omega), if_neg (by omega), if_pos hc, readInteger_ok hread]
        rfl
      · rw [Table.apply, if_pos hsize]

theorem Agrees.decodeName (h : d.Agrees t) (bits : ℕ) (input : Bytes) :
    ∃ status rest name, d.decodeName bits input = some (status, rest, name) ∧
      (status = .ok → ∃ read, fieldName bits input = some (read, rest) ∧ t.name read = some name) := by
  rw [Decoder.decodeName]
  generalize hread : readInteger bits input = read
  obtain ⟨result, rest, index⟩ := read
  dsimp only
  split
  next hfail => exact ⟨_, _, _, rfl, fun hok => absurd hok hfail⟩
  next hok =>
    rw [not_not] at hok
    subst hok
    rw [fieldName, readInteger_ok hread, Option.bind_some]
    split
    next hindex =>
      rw [h.lookup_eq hindex, Option.bind_eq_bind, Option.bind_some]
      cases hfield : t.field index with
      | none => exact ⟨_, _, _, rfl, fun hok => absurd hok (by simp)⟩
      | some field =>
        dsimp only
        split
        · exact ⟨_, _, _, rfl, fun hok => absurd hok (by simp)⟩
        · refine ⟨_, _, _, rfl, fun _ => ⟨.index index, rfl, ?_⟩⟩
          rw [Table.name, hfield]
          rfl
    next hindex =>
      rw [not_not] at hindex
      generalize hname : readString cap.maxStringSize rest = name
      obtain ⟨status, rest', name⟩ := name
      refine ⟨_, _, _, rfl, fun hok => ⟨.text name, ?_, rfl⟩⟩
      subst hok
      rw [if_pos hindex, readString_ok hname]
      rfl

theorem Agrees.decodeLiteral (h : d.Agrees t) (indexing : Indexing) {input : Bytes}
    (hrep : representation input =
      literal indexing (if indexing = .incremental then 6 else 4) input) (output : σ) :
    ∃ pass, d.decodeLiteral add (decide (indexing = .incremental)) input output = some pass ∧
      Reads add d t input output pass := by
  obtain ⟨status, rest, name, hname, hok⟩ :=
    h.decodeName (if indexing = .incremental then 6 else 4) input
  rw [Decoder.decodeLiteral]
  simp only [decide_eq_true_eq]
  rw [hname, Option.bind_eq_bind, Option.bind_some]
  dsimp only
  split
  next hfail => exact ⟨_, rfl, .of_failed add hfail rfl⟩
  next hstatus =>
    obtain ⟨read, hread, htext⟩ := hok (not_not.mp hstatus)
    generalize hvalue : readString cap.maxStringSize rest = value
    obtain ⟨result, rest', value⟩ := value
    dsimp only
    split
    next hfail => exact ⟨_, rfl, .of_failed add hfail rfl⟩
    next hresult =>
      rw [not_not] at hresult
      subst hresult
      have hliteral : representation input = some (.literal indexing read value, rest') := by
        rw [hrep, literal, hread, Option.bind_some, readString_ok hvalue]
        rfl
      split
      · exact ⟨_, rfl, .of_failed add (by simp) rfl⟩
      · generalize hadd : add output name value = added
        obtain ⟨result, output'⟩ := added
        dsimp only
        split
        next hfail => exact ⟨_, rfl, .of_failed add hfail rfl⟩
        next hadded =>
          rw [not_not] at hadded
          subst hadded
          have hfields : addFields add [⟨name, value⟩] output = some output' := addFields_single hadd
          split
          next hincremental =>
            obtain ⟨d', hd', hagrees⟩ := h.insert name value
            rw [hd', Option.bind_eq_bind, Option.bind_some]
            refine ⟨_, rfl, fun _ => ⟨_, _, _, hliteral, ?_, hagrees, hfields⟩,
              fun hne => absurd rfl hne⟩
            rw [Table.apply, htext, Option.map_some, if_pos hincremental]
          next hincremental =>
            refine ⟨_, rfl, fun _ => ⟨_, _, _, hliteral, ?_, h, hfields⟩, fun _ => rfl⟩
            rw [Table.apply, htext, Option.map_some, if_neg hincremental]

theorem representation_literal {c : UInt8} (s : Bytes) (hc : c.toNat < 128)
    (hc' : ¬(32 ≤ c.toNat ∧ c.toNat < 64)) :
    ∃ indexing : Indexing, (indexing = .incremental ↔ 64 ≤ c.toNat) ∧
      representation (c :: s) = literal indexing (if indexing = .incremental then 6 else 4) (c :: s) := by
  rw [representation, if_neg (by omega)]
  split
  next hincremental => exact ⟨.incremental, by simp [hincremental], rfl⟩
  next hother =>
    rw [if_neg (by omega)]
    split
    · exact ⟨.never, by simp [hother], rfl⟩
    · exact ⟨.without, by simp [hother], rfl⟩

theorem Agrees.decodePass (h : d.Agrees t) (c : UInt8) (s : Bytes) (sawField : Bool) (output : σ) :
    ∃ pass sawField', d.decodePass add c (c :: s) sawField output = some (pass, sawField') ∧
      Reads add d t (c :: s) output pass := by
  rw [Decoder.decodePass]
  split
  next hindexed =>
    rw [ne_eq, and_80_eq_zero_iff, not_lt] at hindexed
    obtain ⟨pass, hpass, hreads⟩ := h.decodeIndexed add hindexed s output
    rw [hpass]
    exact ⟨_, _, rfl, hreads⟩
  next hindexed =>
    rw [not_not, and_80_eq_zero_iff] at hindexed
    split
    next hsize =>
      rw [and_e0_eq_iff] at hsize
      obtain ⟨pass, hpass, hreads⟩ := h.decodeSizeUpdate add hsize.1 hsize.2 s sawField output
      rw [hpass]
      exact ⟨_, _, rfl, hreads⟩
    next hsize =>
      rw [and_e0_eq_iff] at hsize
      obtain ⟨indexing, hincremental, hrep⟩ := representation_literal s hindexed hsize
      have hflag : decide (c &&& 0xc0 = 0x40) = decide (indexing = .incremental) := by
        rw [decide_eq_decide, and_c0_eq_iff, hincremental]
        omega
      obtain ⟨pass, hpass, hreads⟩ := h.decodeLiteral add indexing hrep output
      rw [hflag, hpass]
      exact ⟨_, _, rfl, hreads⟩

theorem Agrees.decodeLoop (h : d.Agrees t) {fuel : ℕ} {input : Bytes} (hfuel : input.length ≤ fuel)
    (sawField : Bool) (output : σ) :
    ∃ status d' output', Decoder.decodeLoop add fuel input sawField d output =
        some (status, d', output') ∧ (∃ t', d'.Agrees t') ∧
      (status = .ok → ∃ reps t' fields, Block input reps ∧
        t.run cap.maxDynamicTableBytes reps = some (t', fields) ∧ d'.Agrees t' ∧
        addFields add fields output = some output') := by
  induction fuel generalizing input sawField d t output with
  | zero =>
    rw [List.length_eq_zero_iff.mp (Nat.le_zero.mp hfuel)]
    exact ⟨_, _, _, rfl, ⟨t, h⟩, fun _ => ⟨[], t, [], .nil, rfl, h, rfl⟩⟩
  | succ fuel ih =>
    cases input with
    | nil => exact ⟨_, _, _, rfl, ⟨t, h⟩, fun _ => ⟨[], t, [], .nil, rfl, h, rfl⟩⟩
    | cons c s =>
      obtain ⟨pass, sawField', hpass, hreads⟩ := h.decodePass add c s sawField output
      rw [Decoder.decodeLoop, hpass, Option.bind_eq_bind, Option.bind_some]
      dsimp only
      split
      next hfail =>
        refine ⟨_, _, _, rfl, ⟨t, ?_⟩, fun hok => absurd hok hfail⟩
        rw [hreads.failed hfail]
        exact h
      next hok =>
        obtain ⟨rep, t', fields, hrep, happly, hagrees, hadd⟩ := hreads.ok (not_not.mp hok)
        have hlen := representation_length hrep
        rw [List.length_cons] at hlen hfuel
        obtain ⟨status, d', output', hloop, htable, hread⟩ :=
          ih hagrees (Nat.le_of_lt_succ (hlen.trans_le hfuel)) sawField' pass.output
        refine ⟨status, d', output', hloop, htable, fun hstatus => ?_⟩
        obtain ⟨reps, t'', fields', hblock, hrun, hagrees', hadd'⟩ := hread hstatus
        refine ⟨rep :: reps, t'', fields ++ fields', .cons hrep hblock, ?_, hagrees', ?_⟩
        · rw [Table.run, happly, Option.bind_some, hrun]
          rfl
        · rw [addFields_append, hadd]
          exact hadd'

theorem Agrees.decodeBlock (h : d.Agrees t) (input : Bytes) (output : σ) :
    ∃ status d' output', d.decodeBlock add input output = some (status, d', output') ∧
      (∃ t', d'.Agrees t') ∧
      (status = .ok → ∃ reps t' fields, Block input reps ∧
        t.run cap.maxDynamicTableBytes reps = some (t', fields) ∧ d'.Agrees t' ∧
        addFields add fields output = some output') :=
  h.decodeLoop add (Nat.le_refl _) false output

theorem toStatus_blockError_ne_ok (decoded : Status) : toStatus (blockError decoded) ≠ .ok := by
  rw [blockError]
  split <;> decide

theorem Agrees.decodeBlocks (h : d.Agrees t) (blocks : List (σ × Bytes)) :
    ∃ status d', d.decodeBlocks add blocks = some (status, d') ∧
      (status = .ok → ∃ reps t' fields,
        List.Forall₂ (fun block rep => Block block.2 rep) blocks reps ∧
        t.run cap.maxDynamicTableBytes reps.flatten = some (t', fields) ∧ d'.Agrees t') := by
  induction blocks generalizing d t with
  | nil => exact ⟨_, _, rfl, fun _ => ⟨[], t, [], .nil, rfl, h⟩⟩
  | cons block blocks ih =>
    obtain ⟨output, input⟩ := block
    obtain ⟨decoded, d₁, output', hdecode, -, hread⟩ := h.decodeBlock add input output
    rw [Decoder.decodeBlocks, hdecode, Option.bind_eq_bind, Option.bind_some]
    dsimp only
    by_cases hdecoded : decoded = .ok
    · obtain ⟨reps, t₁, fields, hblock, hrun, hagrees, -⟩ := hread hdecoded
      obtain ⟨status, d', hrest, hreads⟩ := ih hagrees
      refine ⟨status, d', ?_, fun hstatus => ?_⟩
      · rw [if_neg (not_not.mpr hdecoded), if_neg (by simp)]
        exact hrest
      · obtain ⟨reps', t', fields', hblocks, hrun', hagrees'⟩ := hreads hstatus
        refine ⟨reps :: reps', t', fields ++ fields', .cons hblock hblocks, ?_, hagrees'⟩
        rw [List.flatten_cons, Table.run_append, hrun, Option.bind_some, hrun']
        rfl
    · refine ⟨_, d₁, ?_, fun hstatus => absurd hstatus (toStatus_blockError_ne_ok decoded)⟩
      rw [if_pos hdecoded, if_pos (toStatus_blockError_ne_ok decoded)]

/-- On every connection the decoder stays in bounds; as long as the connection goes on, its
table is that of all representations, and index lookups find what is in it. -/
theorem decodeBlocks_refines_table (cap : DecoderCapacity) (headersCap : HeadersCapacity)
    (blocks : List (Headers × Bytes)) :
    ∃ status d, (init cap).decodeBlocks (Headers.add headersCap) blocks = some (status, d) ∧
      (status = .ok → ∃ reps t fields,
        List.Forall₂ (fun block rep => Block block.2 rep) blocks reps ∧
        (Table.init cap.maxDynamicTableBytes).run cap.maxDynamicTableBytes reps.flatten =
          some (t, fields) ∧
        d.Agrees t ∧ ∀ index ≠ 0, d.lookup index = some (t.field index)) := by
  obtain ⟨status, d, hrun, hreads⟩ := (init_agrees cap).decodeBlocks (Headers.add headersCap) blocks
  refine ⟨status, d, hrun, fun hstatus => ?_⟩
  obtain ⟨reps, t, fields, hblocks, htable, hagrees⟩ := hreads hstatus
  exact ⟨reps, t, fields, hblocks, htable, hagrees, fun index hindex => hagrees.lookup_eq hindex⟩

end Decoder

/-- A decoder that agrees with a table; no access of it is out of bounds. -/
structure TableDecoder (cap : DecoderCapacity) where
  decoder : Decoder cap
  agrees : ∃ t, decoder.Agrees t

namespace TableDecoder

def init (cap : DecoderCapacity) : TableDecoder cap := ⟨.init cap, _, Decoder.init_agrees cap⟩

def clearDynamicTable (d : TableDecoder cap) : TableDecoder cap where
  decoder := d.decoder.clearDynamicTable
  agrees := by
    obtain ⟨t, h⟩ := d.agrees
    exact ⟨_, h.clearDynamicTable⟩

def decodeBlock (add : σ → Bytes → Bytes → Status × σ) (d : TableDecoder cap) (input : Bytes)
    (output : σ) : Status × TableDecoder cap × σ :=
  match h : d.decoder.decodeBlock add input output with
  | some (status, decoder, fields) =>
    (status, ⟨decoder, by
      obtain ⟨t, ht⟩ := d.agrees
      obtain ⟨status', d', output', hdecode, htable, -⟩ := ht.decodeBlock add input output
      rw [hdecode] at h
      cases h
      exact htable⟩, fields)
  | none => (.invalidArgument, d, output)

theorem decodeBlock_eq (add : σ → Bytes → Bytes → Status × σ) (d : TableDecoder cap) (input : Bytes)
    (output : σ) : d.decoder.decodeBlock add input output =
      some ((d.decodeBlock add input output).1, (d.decodeBlock add input output).2.1.decoder,
        (d.decodeBlock add input output).2.2) := by
  obtain ⟨t, ht⟩ := d.agrees
  obtain ⟨status, d', output', hdecode, htable, -⟩ := ht.decodeBlock add input output
  rw [decodeBlock]
  split
  next h => exact h
  next h =>
    rw [hdecode] at h
    cases h

/-- A block that is decoded takes the decoder from the table before it to the table after it. -/
theorem decodeBlock_agrees {d : TableDecoder cap}
    {t : Table} (h : d.decoder.Agrees t) (add : σ → Bytes → Bytes → Status × σ)
    (input : Bytes) (output : σ) (hok : (d.decodeBlock add input output).1 = .ok) :
    ∃ reps t' fields, Block input reps ∧ t.run cap.maxDynamicTableBytes reps =
    some (t', fields) ∧ (d.decodeBlock add input output).2.1.decoder.Agrees t' ∧
    Decoder.addFields add fields output = some (d.decodeBlock add input output).2.2 := by
  obtain ⟨status, d', output', hdecode, -, hread⟩ := h.decodeBlock add input output
  rw [decodeBlock_eq, Option.some_inj, Prod.mk.injEq, Prod.mk.injEq] at hdecode
  obtain ⟨hstatus, hd, houtput⟩ := hdecode
  rw [hd, houtput]
  exact hread (hstatus ▸ hok)

end TableDecoder
end Castle.Http.Hpack
