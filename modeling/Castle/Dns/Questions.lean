import Castle.Dns.Names
import Castle.Dns.Client

/-!
# The names of questions (`message.hpp` and `client.hpp`)

A name that `encode_query` takes is read back as it was. Texts of other names may be equal to it
when a label has a dot.
-/

namespace Castle.Dns

/-- The labels of a text; the root has none. -/
def labelsOf (name : Bytes) : List Label :=
  if withoutDot name = [] then [] else (withoutDot name).splitOn dot

/-- A label of a name: 1 to 63 bytes of ASCII without NUL. -/
def IsLabel (label : Label) : Prop := (1 ≤ label.length ∧ label.length ≤ 63) ∧ ∀ c ∈ label, IsNameByte c

instance (label : Label) : Decidable (IsLabel label) := inferInstanceAs (Decidable (_ ∧ _))

theorem withoutDot_dot : withoutDot [dot] = [] := by decide

theorem wireSize_append (front back : List Label) :
    wireSize (front ++ back) + 1 = wireSize front + wireSize back := by
  induction front with
  | nil => rw [List.nil_append, wireSize_nil, Nat.add_comm]
  | cons label front ih => rw [List.cons_append, wireSize_cons, wireSize_cons, Nat.add_assoc, ih, ← Nat.add_assoc]

theorem wireSize_singleton (label : Label) : wireSize [label] = label.length + 2 := by
  rw [wireSize_cons, wireSize_nil]

theorem isNameByte_of_check {c : UInt8} (h : ¬(c = 0 ∨ c > 127)) : IsNameByte c := by
  rw [not_or] at h
  refine ⟨?_, UInt8.not_lt.mp h.2⟩
  rw [UInt8.lt_iff_toNat_lt, UInt8.toNat_zero]
  have hzero := h.1
  rw [← UInt8.toNat_inj, UInt8.toNat_zero] at hzero
  omega

theorem check_of_isNameByte {c : UInt8} (h : IsNameByte c) : ¬(c = 0 ∨ c > 127) := by
  rintro (rfl | hlarge)
  · exact absurd h.1 (by decide)
  · exact UInt8.not_lt.mpr h.2 hlarge

theorem checkLabels_ok (front : Bytes) {text : Bytes} {wire last total : ℕ}
    (h : checkLabels text front.length wire = .ok (last, total)) (hdot : dot ∉ front)
    (hfront : ∀ c ∈ front, IsNameByte c) :
    ∃ labels label, (front ++ text).splitOn dot = labels ++ [label] ∧ label.length = last ∧
      total + 1 = wire + wireSize labels ∧ (∀ l ∈ labels, IsLabel l) ∧ ∀ c ∈ label, IsNameByte c := by
  induction text generalizing front wire with
  | nil =>
    cases h
    exact ⟨[], front, by rw [List.append_nil, List.splitOn_eq_singleton hdot]; rfl, rfl, rfl, by simp, hfront⟩
  | cons c text ih =>
    rw [checkLabels] at h
    split at h
    next hc =>
      split at h
      · cases h
      next hsize =>
      split at h
      · cases h
      next =>
      obtain ⟨labels, label, hsplit, hlast, htotal, hlabels, hlabel⟩ :=
        ih [] h (by simp) (by simp)
      refine ⟨front :: labels, label, ?_, hlast, ?_, ?_, hlabel⟩
      · rw [hc, List.splitOn_append_cons_self_of_not_mem hdot]
        rw [List.nil_append] at hsplit
        rw [hsplit, List.cons_append]
      · rw [wireSize_cons]
        omega
      · rw [List.forall_mem_cons]
        exact ⟨⟨by omega, hfront⟩, hlabels⟩
    next hc =>
      split at h
      · cases h
      next hbyte =>
      have hnext := ih (front ++ [c]) (by rw [List.length_append]; exact h)
        (by simp [hdot, Ne.symm hc]) (by
          rw [List.forall_mem_append, List.forall_mem_singleton]
          exact ⟨hfront, isNameByte_of_check hbyte⟩)
      rwa [List.append_assoc] at hnext

variable {labels : List Label}

theorem checkLabels_of_labels (text front : Bytes) (wire : ℕ) {label : Label}
    (hsplit : (front ++ text).splitOn dot = labels ++ [label]) (hdot : dot ∉ front)
    (hlabels : ∀ l ∈ labels, 1 ≤ l.length ∧ l.length ≤ 63) (hbytes : ∀ c ∈ text, IsNameByte c)
    (hwire : wire + wireSize labels ≤ 256) :
    checkLabels text front.length wire = .ok (label.length, wire + wireSize labels - 1) := by
  induction text generalizing front wire labels with
  | nil =>
    rw [List.append_nil, List.splitOn_eq_singleton hdot] at hsplit
    cases labels with
    | nil =>
      cases hsplit
      rfl
    | cons first labels => simp at hsplit
  | cons c text ih =>
    rw [List.forall_mem_cons] at hbytes
    rw [checkLabels]
    by_cases hc : c = dot
    · rw [hc, List.splitOn_append_cons_self_of_not_mem hdot] at hsplit
      cases labels with
      | nil =>
        have hne := List.splitOn_ne_nil dot text
        simp [hne] at hsplit
      | cons first labels =>
        rw [List.cons_append, List.cons.injEq] at hsplit
        obtain ⟨rfl, hsplit⟩ := hsplit
        rw [List.forall_mem_cons] at hlabels
        have hsize := hlabels.1
        rw [wireSize_cons] at hwire
        have hpos : 1 ≤ wireSize labels := by rw [wireSize]; omega
        rw [if_pos hc, if_neg (by omega), if_neg (by omega)]
        have hnext := ih [] (wire + front.length + 1) hsplit (by simp) hlabels.2 hbytes.2 (by omega)
        rw [List.length_nil] at hnext
        rw [hnext, wireSize_cons]
        congr 2
        omega
    · have hassoc : front ++ c :: text = (front ++ [c]) ++ text := by rw [List.append_assoc]; rfl
      have hnext := ih (front ++ [c]) wire (by rw [← hassoc]; exact hsplit)
        (by simp [hdot, Ne.symm hc]) hlabels hbytes.2 hwire
      rw [if_neg hc, if_neg (check_of_isNameByte hbytes.1)]
      rwa [List.length_append] at hnext

/-- The labels of a name on the wire. -/
def writeLabels (labels : List Label) : Bytes := labels.flatMap writeLabel ++ [0]

theorem length_writeLabels (labels : List Label) : (writeLabels labels).length = wireSize labels := by
  induction labels with
  | nil => rfl
  | cons label labels ih =>
    rw [writeLabels] at ih ⊢
    rw [wireSize_cons, ← ih, List.flatMap_cons, writeLabel, List.append_assoc, List.length_append,
      List.length_cons]

theorem encodeQuery_ok {name query : Bytes} {type : RecordType} {id : UInt16} {capacity : ℕ}
    (h : encodeQuery name type id capacity = .ok query) : query = queryHeader id ++ writeLabels
    (labelsOf name) ++ (writeBe16 type ++ writeBe16 internet) ∧ wireSize (labelsOf name) ≤ 255 ∧
    (∀ label ∈ labelsOf name, IsLabel label) ∧ nameText (labelsOf name) = withoutDot name := by
  rw [encodeQuery] at h
  split at h
  · cases h
  next =>
  split at h
  · cases h
  next =>
  split at h
  next hroot =>
    have hlabels : labelsOf name = [] := by rw [labelsOf, hroot, if_pos withoutDot_dot]
    split at h
    · cases h
    · cases h
      rw [hlabels, hroot, withoutDot_dot]
      exact ⟨by rw [List.append_assoc]; rfl, by decide, by simp, rfl⟩
  next hroot =>
    cases hcheck : checkLabels (withoutDot name) 0 1 with
    | error result =>
      rw [hcheck] at h
      cases h
    | ok checked =>
      obtain ⟨last, total⟩ := checked
      rw [hcheck] at h
      dsimp only at h
      split at h
      · cases h
      next hlast =>
      split at h
      · cases h
      · cases h
        obtain ⟨labels, label, hsplit, hlength, htotal, hlabels, hlabel⟩ :=
          checkLabels_ok [] hcheck (by simp) (by simp)
        rw [List.nil_append] at hsplit
        have hne : withoutDot name ≠ [] := by
          intro hnil
          rw [hnil] at hcheck
          cases hcheck
          omega
        have hlabelsOf : labelsOf name = labels ++ [label] := by rw [labelsOf, if_neg hne, hsplit]
        have hwire := wireSize_append labels [label]
        rw [wireSize_singleton] at hwire
        rw [hlabelsOf]
        refine ⟨?_, by omega, ?_, ?_⟩
        · rw [writeName, hsplit, writeLabels, List.append_assoc _ (writeBe16 type)]
        · rw [List.forall_mem_append, List.forall_mem_singleton]
          exact ⟨hlabels, by omega, hlabel⟩
        · rw [nameText, ← hsplit, List.intercalate_splitOn]

theorem nameAt_writeLabels (front : Bytes) (labels : List Label) (hlabels : ∀ label ∈ labels, IsLabel label)
    (back : Bytes) :
    NameAt (front ++ writeLabels labels ++ back) front.length labels (labels.length + 1) (wireSize labels) := by
  induction labels generalizing front with
  | nil =>
    refine .root ?_
    rw [writeLabels, List.append_assoc, List.getElem?_append_right (Nat.le_refl _), Nat.sub_self]
    rfl
  | cons label labels ih =>
    rw [List.forall_mem_cons] at hlabels
    obtain ⟨⟨⟨hpos, hle⟩, _⟩, hrest⟩ := hlabels
    have hnat : (UInt8.ofNat label.length).toNat = label.length := by
      rw [UInt8.toNat_ofNat', Nat.mod_eq_of_lt (by omega)]
    have hwritten : front ++ writeLabels (label :: labels) ++ back =
        front ++ UInt8.ofNat label.length :: (label ++ (writeLabels labels ++ back)) := by
      simp [writeLabels, writeLabel]
    have hnext := ih (front ++ UInt8.ofNat label.length :: label) hrest
    have hsame : front ++ UInt8.ofNat label.length :: label ++ writeLabels labels ++ back =
        front ++ UInt8.ofNat label.length :: (label ++ (writeLabels labels ++ back)) := by
      simp
    rw [hsame] at hnext
    rw [hwritten]
    have hlength : (front ++ UInt8.ofNat label.length :: (label ++ (writeLabels labels ++ back)))[front.length]? =
        some (UInt8.ofNat label.length) := by
      rw [List.getElem?_append_right (Nat.le_refl _), Nat.sub_self]
      rfl
    have hlabel : ((front ++ UInt8.ofNat label.length :: (label ++ (writeLabels labels ++ back))).drop
        (front.length + 1)).take (UInt8.ofNat label.length).toNat = label := by
      rw [hnat, List.drop_append, List.drop_eq_nil_of_le (by omega), Nat.add_sub_cancel_left,
        List.nil_append, List.drop_succ_cons, List.drop_zero, List.take_left]
    have hoffset : (front ++ UInt8.ofNat label.length :: label).length =
        front.length + 1 + (UInt8.ofNat label.length).toNat := by
      rw [hnat, List.length_append, List.length_cons]
      omega
    rw [hoffset] at hnext
    have hname := NameAt.label hlength (by rw [UInt8.lt_iff_toNat_lt, hnat]; exact hpos)
      (by rw [UInt8.le_iff_toNat_le, hnat]; exact hle) hnext
    rw [hlabel, hnat] at hname
    have hextent : 1 + label.length + wireSize labels = wireSize (label :: labels) := by
      rw [wireSize_cons]
      omega
    rwa [hextent] at hname

theorem length_le_wireSize (h : ∀ label ∈ labels, IsLabel label) :
    2 * labels.length + 1 ≤ wireSize labels := by
  induction labels with
  | nil => decide
  | cons label labels ih =>
    rw [List.forall_mem_cons] at h
    have hlabel := h.1.1
    have hlabels := ih h.2
    rw [List.length_cons, wireSize_cons]
    omega

/-- The name of a query is read back: its text without the last dot, from all of its bytes. -/
theorem encodeQuery_decodeName {name query : Bytes} {type : RecordType} {id : UInt16} {capacity : ℕ}
    (h : encodeQuery name type id capacity = .ok query) : ∃ labels : List Label, query =
    queryHeader id ++ writeLabels labels ++ (writeBe16 type ++ writeBe16 internet) ∧
    decodeName query headerSize textCapacity = .ok (withoutDot name, (writeLabels labels).length) ∧
    (writeLabels labels).length ≤ 255 ∧ ∀ label ∈ labels, 1 ≤ label.length ∧ label.length ≤ 63 := by
  obtain ⟨hquery, hsize, hlabels, htext⟩ := encodeQuery_ok h
  refine ⟨labelsOf name, hquery, ?_, by rwa [length_writeLabels], fun label hlabel => (hlabels label hlabel).1⟩
  have hname := nameAt_writeLabels (queryHeader id) _ hlabels (writeBe16 type ++ writeBe16 internet)
  rw [← hquery] at hname
  have hpasses := length_le_wireSize hlabels
  have hdecodable : Decodable query headerSize (labelsOf name) (wireSize (labelsOf name)) :=
    ⟨⟨_, by omega, hname⟩, hsize, fun label hlabel => (hlabels label hlabel).2⟩
  rw [hdecodable.decodeName, htext, length_writeLabels]

/-- `a.b.` -/
theorem encodeQuery_decodeName_dotted : ∃ labels : List Label, queryHeader 7 ++
    [1, 0x61, 1, 0x62, 0] ++ (writeBe16 RecordType.a ++ writeBe16 internet) = queryHeader 7 ++
    writeLabels labels ++ (writeBe16 RecordType.a ++ writeBe16 internet) ∧ decodeName
    (queryHeader 7 ++ [1, 0x61, 1, 0x62, 0] ++ (writeBe16 RecordType.a ++ writeBe16 internet))
    headerSize textCapacity = .ok (withoutDot [0x61, dot, 0x62, dot], (writeLabels labels).length) ∧
    (writeLabels labels).length ≤ 255 ∧ ∀ label ∈ labels, 1 ≤ label.length ∧ label.length ≤ 63 :=
  have h : encodeQuery [0x61, dot, 0x62, dot] RecordType.a 7 classicUdpLimit =
      .ok (queryHeader 7 ++ [1, 0x61, 1, 0x62, 0] ++ (writeBe16 RecordType.a ++ writeBe16 internet)) := by
    decide
  encodeQuery_decodeName h

/-- The same labels without case. -/
def SameLabels (labels labels' : List Label) : Prop :=
  labels.map (·.map lowerCase) = labels'.map (·.map lowerCase)

instance (labels labels' : List Label) : Decidable (SameLabels labels labels') :=
  inferInstanceAs (Decidable (_ = _))

/-- The labels of a name, cut at the dots in them. -/
def pieces (labels : List Label) : List Label :=
  if labels = [] then [[]] else labels.flatMap fun label => label.splitOn dot

/-- The pieces without an empty one at the end: `same_name` drops a dot at the end of the first text. -/
def trimmed (pieces : List Label) : List Label :=
  if 1 < pieces.length ∧ pieces.getLast? = some [] then pieces.dropLast else pieces

/-- Different names that have the same pieces. -/
def Regrouped (labels labels' : List Label) : Prop :=
  ¬SameLabels labels labels' ∧ SameLabels (trimmed (pieces labels)) (pieces labels')

theorem lowerCase_eq_dot (c : UInt8) : lowerCase c = dot ↔ c = dot := by
  revert c
  refine WordBits.forall_byte ?_
  set_option maxRecDepth 1000 in
  decide

theorem splitOn_lowerCase (text : Bytes) :
    (text.map lowerCase).splitOn dot = (text.splitOn dot).map (·.map lowerCase) := by
  induction text with
  | nil => rfl
  | cons c text ih =>
    rw [List.map_cons, List.splitOn_cons_eq_if_modifyHead, List.splitOn_cons_eq_if_modifyHead, ih]
    have hne := List.splitOn_ne_nil dot text
    simp only [beq_iff_eq, lowerCase_eq_dot]
    cases hsplit : text.splitOn dot with
    | nil => exact absurd hsplit hne
    | cons piece rest =>
      split
      · rfl
      · rfl

theorem lowerCase_eq_iff {text text' : Bytes} :
    text.map lowerCase = text'.map lowerCase ↔ SameLabels (text.splitOn dot) (text'.splitOn dot) := by
  rw [SameLabels, ← splitOn_lowerCase, ← splitOn_lowerCase]
  refine ⟨fun h => by rw [h], fun h => ?_⟩
  have hjoin : [dot].intercalate ((text.map lowerCase).splitOn dot) = text.map lowerCase :=
    List.intercalate_splitOn dot
  rw [← hjoin, h, List.intercalate_splitOn]

theorem splitOn_nameText (labels : List Label) : (nameText labels).splitOn dot = pieces labels := by
  cases labels with
  | nil => rfl
  | cons label labels =>
    rw [pieces, if_neg (by simp)]
    induction labels generalizing label with
    | nil => rw [nameText, List.intercalate_singleton, List.flatMap_singleton]
    | cons next labels ih =>
      have hnext := ih next
      rw [nameText] at hnext
      rw [nameText, List.intercalate_cons_cons, List.append_assoc, List.singleton_append,
        List.splitOn_append_cons_self, hnext]
      rfl

theorem splitOn_concat (front : Bytes) {c : UInt8} (hc : c ≠ dot) :
    ∃ init piece, (front ++ [c]).splitOn dot = init ++ [piece ++ [c]] := by
  induction front with
  | nil => exact ⟨[], [], List.splitOn_eq_singleton (by simpa using hc.symm)⟩
  | cons a front ih =>
    obtain ⟨init, piece, hsplit⟩ := ih
    rw [List.cons_append, List.splitOn_cons_eq_if_modifyHead, hsplit]
    split
    · exact ⟨[] :: init, piece, rfl⟩
    · cases init with
      | nil => exact ⟨[], a :: piece, rfl⟩
      | cons first init => exact ⟨(a :: first) :: init, piece, rfl⟩

theorem splitOn_withoutDot (text : Bytes) : (withoutDot text).splitOn dot = trimmed (text.splitOn dot) := by
  rw [withoutDot, trimmed]
  rcases List.eq_nil_or_concat text with rfl | ⟨front, c, rfl⟩
  · rfl
  rw [List.concat_eq_append, List.getLast?_concat, List.dropLast_concat]
  by_cases hc : c = dot
  · have hsplit : (front ++ [c]).splitOn dot = front.splitOn dot ++ [[]] := by
      rw [hc, List.splitOn_append_cons_self]
      rfl
    have hpos := List.length_pos_of_ne_nil (List.splitOn_ne_nil dot front)
    rw [if_pos (by rw [hc]), hsplit, List.getLast?_concat, List.dropLast_concat, if_pos]
    exact ⟨by rw [List.length_append, List.length_singleton]; omega, rfl⟩
  · rw [if_neg (by simpa using hc), if_neg]
    obtain ⟨init, piece, hsplit⟩ := splitOn_concat front hc
    rw [hsplit, List.getLast?_concat]
    simp

theorem sameName_iff (labels labels' : List Label) : sameName (nameText labels) (nameText labels') =
    true ↔ SameLabels (trimmed (pieces labels)) (pieces labels') := by
  rw [sameName, decide_eq_true_iff, lowerCase_eq_iff, splitOn_withoutDot, splitOn_nameText, splitOn_nameText]

theorem pieces_eq_self (hne : labels ≠ []) (h : ∀ label ∈ labels, dot ∉ label) :
    pieces labels = labels := by
  rw [← splitOn_nameText, nameText, List.splitOn_intercalate dot h hne]

theorem trimmed_eq_self (h : ∀ label ∈ labels, 1 ≤ label.length) : trimmed labels = labels := by
  refine if_neg ?_
  rintro ⟨_, hlast⟩
  exact absurd (h [] (List.mem_of_getLast? hlast)) (by decide)

theorem not_regrouped_of_plain {labels' : List Label} (hsize : ∀ label ∈ labels, 1 ≤ label.length)
    (hsize' : ∀ label ∈ labels', 1 ≤ label.length) (h : ∀ label ∈ labels, dot ∉ label)
    (h' : ∀ label ∈ labels', dot ∉ label) : ¬Regrouped labels labels' := by
  rintro ⟨hdiffer, hsame⟩
  apply hdiffer
  have hroot : ∀ {other : List Label}, (∀ label ∈ other, 1 ≤ label.length) → SameLabels [[]] other → False := by
    intro other hother hroot
    cases other with
    | nil => cases hroot
    | cons label other =>
      have hempty : [] = label.map lowerCase := (List.cons.inj hroot).1
      rw [eq_comm, List.map_eq_nil_iff] at hempty
      rw [hempty] at hother
      exact absurd (hother [] List.mem_cons_self) (by decide)
  by_cases hne : labels = []
  · by_cases hne' : labels' = []
    · rw [hne, hne']
      rfl
    · rw [hne, pieces_eq_self hne' h'] at hsame
      exact (hroot hsize' hsame).elim
  · rw [pieces_eq_self hne h, trimmed_eq_self hsize] at hsame
    by_cases hne' : labels' = []
    · rw [hne'] at hsame
      exact (hroot hsize hsame.symm).elim
    · rwa [pieces_eq_self hne' h'] at hsame

theorem length_le_of_mem_splitOn {text piece : Bytes} (h : piece ∈ text.splitOn dot) :
    piece.length ≤ text.length := by
  induction text generalizing piece with
  | nil =>
    rw [List.splitOn_nil, List.mem_singleton] at h
    rw [h]
  | cons c text ih =>
    rw [List.splitOn_cons_eq_if_modifyHead] at h
    cases hsplit : text.splitOn dot with
    | nil => exact absurd hsplit (List.splitOn_ne_nil dot text)
    | cons first rest =>
      rw [hsplit] at h ih
      split at h
      · rw [List.mem_cons] at h
        rcases h with rfl | h
        · exact Nat.zero_le _
        · exact le_trans (ih h) (by simp)
      · rw [List.modifyHead_cons, List.mem_cons] at h
        rcases h with rfl | h
        · have hfirst := ih (List.mem_cons_self)
          rw [List.length_cons, List.length_cons]
          omega
        · exact le_trans (ih (List.mem_cons_of_mem _ h)) (by simp)

theorem isNameByte_of_mem_nameText (h : ∀ label ∈ labels, ∀ c ∈ label, IsNameByte c) :
    ∀ c ∈ nameText labels, IsNameByte c := by
  induction labels with
  | nil => simp [nameText]
  | cons label labels ih =>
    rw [List.forall_mem_cons] at h
    have hrest := ih h.2
    rw [nameText] at hrest ⊢
    cases labels with
    | nil =>
      rw [List.intercalate_singleton]
      exact h.1
    | cons next labels =>
      rw [List.intercalate_cons_cons, List.append_assoc, List.forall_mem_append, List.forall_mem_append,
        List.forall_mem_singleton]
      exact ⟨h.1, ⟨by decide, by decide⟩, hrest⟩

theorem nameText_pieces (labels : List Label) : nameText (pieces labels) = nameText labels := by
  rw [← splitOn_nameText, nameText, List.intercalate_splitOn]

theorem pieces_ne_nil (labels : List Label) : pieces labels ≠ [] := by
  rw [← splitOn_nameText]
  exact List.splitOn_ne_nil dot _

theorem withoutDot_nameText (h : ∀ piece ∈ pieces labels, 1 ≤ piece.length) :
    withoutDot (nameText labels) = nameText labels := by
  have hjoin : [dot].intercalate ((withoutDot (nameText labels)).splitOn dot) = withoutDot (nameText labels) :=
    List.intercalate_splitOn dot
  rw [← hjoin, splitOn_withoutDot, splitOn_nameText, trimmed_eq_self h, ← nameText_pieces labels, nameText]

theorem encodeQuery_nameText (hne : labels ≠ []) (hsize : wireSize labels ≤ 255)
    (hlabels : ∀ label ∈ labels, IsLabel label)
    (hpieces : ∀ piece ∈ pieces labels, 1 ≤ piece.length) :
    ∃ query, encodeQuery (nameText labels) RecordType.a 0 classicUdpLimit = .ok query := by
  have hsplit := splitOn_nameText labels
  have hwire : wireSize (pieces labels) = wireSize labels := by
    rw [← length_nameText _ (pieces_ne_nil labels), nameText_pieces, length_nameText labels hne]
  have hshort : ∀ piece ∈ pieces labels, piece.length ≤ 63 := by
    intro piece hpiece
    rw [pieces, if_neg hne, List.mem_flatMap] at hpiece
    obtain ⟨label, hlabel, hpiece⟩ := hpiece
    exact le_trans (length_le_of_mem_splitOn hpiece) (hlabels label hlabel).1.2
  have htext : nameText labels ≠ [] := by
    intro hnil
    rw [hnil, List.splitOn_nil] at hsplit
    rw [← hsplit] at hpieces
    exact absurd (hpieces [] (List.mem_singleton_self _)) (by decide)
  have hdot : nameText labels ≠ [dot] := by
    intro hdot
    rw [hdot] at hsplit
    have hsplitDot : [dot].splitOn dot = [[], []] := by decide
    rw [← hsplit, hsplitDot] at hpieces
    exact absurd (hpieces [] List.mem_cons_self) (by decide)
  have hbytes := isNameByte_of_mem_nameText fun label hlabel => (hlabels label hlabel).2
  obtain ⟨init, last, hconcat⟩ : ∃ init last, pieces labels = init ++ [last] := by
    rcases List.eq_nil_or_concat (pieces labels) with hnil | ⟨init, last, hconcat⟩
    · exact absurd hnil (pieces_ne_nil labels)
    · exact ⟨init, last, by rw [hconcat, List.concat_eq_append]⟩
  rw [hconcat] at hwire hsplit hshort hpieces
  rw [List.forall_mem_append, List.forall_mem_singleton] at hshort hpieces
  have hsum := wireSize_append init [last]
  rw [wireSize_singleton] at hsum
  have hcheck := checkLabels_of_labels (nameText labels) [] 1 hsplit (by simp)
    (fun piece hpiece => ⟨hpieces.1 piece hpiece, hshort.1 piece hpiece⟩) hbytes (by omega)
  have hlast := hpieces.2
  have hlastShort := hshort.2
  have hempty : (nameText labels).isEmpty = false := by simpa using htext
  rw [List.length_nil] at hcheck
  rw [encodeQuery, withoutDot_nameText (by
      rw [hconcat, List.forall_mem_append, List.forall_mem_singleton]
      exact hpieces), hcheck, hempty, if_neg (by decide), if_neg (by decide), if_neg hdot]
  dsimp only
  rw [if_neg (by omega), if_neg (by rw [headerSize, classicUdpLimit]; omega)]
  exact ⟨_, rfl⟩

section

variable {data : Bytes} {offset capacity hops extent consumed : ℕ} {text : Bytes} {labels : List Label}

theorem decodeName_labels (h : decodeName data offset capacity = .ok (text, consumed))
    (hname : NameAt data offset labels hops extent) :
    text = nameText labels ∧ Decodable data offset labels consumed := by
  obtain ⟨labels', hdecodable, htext⟩ := decodeName_sound h
  obtain ⟨hops', _, hname'⟩ := hdecodable.stands
  rw [(hname.unique hname').1]
  exact ⟨htext, hdecodable⟩

theorem Decodable.isLabel (h : Decodable data offset labels consumed) : ∀ label ∈ labels, IsLabel label := by
  obtain ⟨_, _, hname⟩ := h.stands
  exact fun label hlabel => ⟨hname.label_ne_nil label hlabel, h.ascii label hlabel⟩

theorem length_lt_pieces (h : ∃ label ∈ labels, dot ∈ label) : labels.length < (pieces labels).length := by
  obtain ⟨label, hlabel, hdot⟩ := h
  have hone : ∀ l : Label, 1 ≤ (l.splitOn dot).length := fun l => List.length_pos_of_ne_nil (List.splitOn_ne_nil dot l)
  have htwo : 2 ≤ (label.splitOn dot).length := by
    obtain ⟨front, back, rfl⟩ := List.append_of_mem hdot
    rw [List.splitOn_append_cons_self, List.length_append]
    have hfront := hone front
    have hback := hone back
    omega
  have hle : ∀ ls : List Label, ls.length ≤ (ls.flatMap fun l => l.splitOn dot).length := by
    intro ls
    induction ls with
    | nil => exact le_rfl
    | cons l ls ih =>
      have hl := hone l
      rw [List.flatMap_cons, List.length_append, List.length_cons]
      omega
  obtain ⟨before, behind, rfl⟩ := List.append_of_mem hlabel
  rw [pieces, if_neg (by simp), List.flatMap_append, List.flatMap_cons, List.length_append, List.length_append,
    List.length_append, List.length_cons]
  have hbefore := hle before
  have hbehind := hle behind
  omega

theorem sameName_query {name query : Bytes} {type : RecordType} {id : UInt16} {size : ℕ}
    (hquery : encodeQuery name type id size = .ok query) (hlabels : ∀ label ∈ labels, IsLabel label)
    (h : sameName name (nameText labels) = true) : labels = [] ∧ labelsOf name = [] ∨
      labels ≠ [] ∧ SameLabels (labelsOf name) (pieces labels) := by
  obtain ⟨_, _, hasked, _⟩ := encodeQuery_ok hquery
  rw [sameName, decide_eq_true_iff] at h
  by_cases hroot : withoutDot name = []
  · left
    rw [hroot, List.map_nil, eq_comm, List.map_eq_nil_iff] at h
    refine ⟨?_, by rw [labelsOf, if_pos hroot]⟩
    by_contra hne
    have hlength := length_nameText labels hne
    have hsize := length_le_wireSize hlabels
    have hpos := List.length_pos_of_ne_nil hne
    rw [h, List.length_nil] at hlength
    omega
  · right
    refine ⟨?_, ?_⟩
    · rintro rfl
      rw [nameText, List.intercalate_nil, List.map_nil, List.map_eq_nil_iff] at h
      exact hroot h
    · rw [lowerCase_eq_iff, splitOn_nameText] at h
      rwa [labelsOf, if_neg hroot]

/-- Every query that is answered by a name asks for it, exactly when no label of the name has a dot in
it, or no query has the text of the name. -/
theorem queries_told_apart_iff (h : Decodable data offset labels consumed) :
    (∀ name type id size query, encodeQuery name type id size = .ok query →
      sameName name (nameText labels) = true → SameLabels (labelsOf name) labels) ↔
    (∀ label ∈ labels, dot ∉ label) ∨ ∃ label ∈ labels, [] ∈ label.splitOn dot := by
  constructor
  · intro hall
    by_contra hdotted
    rw [not_or] at hdotted
    obtain ⟨hplain, hempty⟩ := hdotted
    push Not at hplain hempty
    obtain ⟨label, hlabel, hdot⟩ := hplain
    have hne : labels ≠ [] := List.ne_nil_of_mem hlabel
    have hpieces : ∀ piece ∈ pieces labels, 1 ≤ piece.length := by
      intro piece hpiece
      rw [pieces, if_neg hne, List.mem_flatMap] at hpiece
      obtain ⟨source, hsource, hpiece⟩ := hpiece
      refine List.length_pos_of_ne_nil ?_
      rintro rfl
      exact hempty source hsource hpiece
    obtain ⟨query, hquery⟩ := encodeQuery_nameText hne h.fits h.isLabel hpieces
    have hsame : sameName (nameText labels) (nameText labels) = true := by
      rw [sameName_iff, trimmed_eq_self hpieces]
      rfl
    have hlabels := hall _ _ _ _ _ hquery hsame
    have hlength := congrArg List.length hlabels
    have hmore := length_lt_pieces ⟨label, hlabel, hdot⟩
    rcases sameName_query hquery h.isLabel hsame with ⟨hroot, _⟩ | ⟨_, hpiece⟩
    · exact hne hroot
    · have hpieceLength := congrArg List.length hpiece
      simp only [List.length_map] at hlength hpieceLength
      omega
  · rintro hcases name type id size query hquery hsame
    obtain ⟨_, _, hasked, _⟩ := encodeQuery_ok hquery
    rcases sameName_query hquery h.isLabel hsame with ⟨hroot, hnone⟩ | ⟨hne, hpieces⟩
    · rw [hroot, hnone]
      rfl
    · rcases hcases with hplain | ⟨label, hlabel, hempty⟩
      · rwa [pieces_eq_self hne hplain] at hpieces
      · have hmem : [] ∈ (pieces labels).map (·.map lowerCase) := by
          rw [List.mem_map]
          refine ⟨[], ?_, rfl⟩
          rw [pieces, if_neg hne, List.mem_flatMap]
          exact ⟨label, hlabel, hempty⟩
        rw [← hpieces, List.mem_map] at hmem
        obtain ⟨asked, hmem, hnil⟩ := hmem
        rw [List.map_eq_nil_iff] at hnil
        have hsize := (hasked asked hmem).1.1
        rw [hnil] at hsize
        exact absurd hsize (by decide)

end

section

variable {data data' : Bytes} {offset offset' capacity capacity' : ℕ} {text text' : Bytes}
  {labels labels' : List Label} {hops hops' extent extent' : ℕ} {consumed consumed' : ℕ}

/-- Two decoded names whose texts are equal are the same, exactly when they are not different groupings
of the same pieces; and a name is never taken for that of a query, exactly when its labels have no dots
or no query has its text. -/
theorem decoded_names_differ_iff (h : decodeName data offset capacity = .ok (text, consumed))
    (h' : decodeName data' offset' capacity' = .ok (text', consumed'))
    (hname : NameAt data offset labels hops extent) (hname' : NameAt data' offset' labels' hops' extent') :
    ((sameName text text' = true → SameLabels labels labels') ↔ ¬Regrouped labels labels') ∧
    ((∀ label ∈ labels, dot ∉ label) → (∀ label ∈ labels', dot ∉ label) → ¬Regrouped labels labels') ∧
    ((∀ name type id size query, encodeQuery name type id size = .ok query →
        sameName name text' = true → SameLabels (labelsOf name) labels') ↔
      (∀ label ∈ labels', dot ∉ label) ∨ ∃ label ∈ labels', [] ∈ label.splitOn dot) := by
  obtain ⟨rfl, hdecodable⟩ := decodeName_labels h hname
  obtain ⟨rfl, hdecodable'⟩ := decodeName_labels h' hname'
  refine ⟨?_, ?_, queries_told_apart_iff hdecodable'⟩
  · rw [sameName_iff, Regrouped]
    tauto
  · exact not_regrouped_of_plain (fun label hlabel => (hname.label_ne_nil label hlabel).1)
      fun label hlabel => (hname'.label_ne_nil label hlabel).1

end

/-- A query for `a.b`. -/
def askedMessage : Bytes :=
  queryHeader 7 ++ [1, 0x61, 1, 0x62, 0] ++ (writeBe16 RecordType.a ++ writeBe16 internet)

/-- A response whose question is the one label `a.b`. -/
def dottedMessage : Bytes :=
  writeBe16 7 ++ [0x80, 0x00, 0x00, 0x01, 0, 0, 0, 0, 0, 0] ++ [3, 0x61, dot, 0x62, 0] ++
    (writeBe16 RecordType.a ++ writeBe16 internet)

theorem askedMessage_name : NameAt askedMessage headerSize [[0x61], [0x62]] 3 5 :=
  nameAt_writeLabels (queryHeader 7) [[0x61], [0x62]]
    (by set_option maxRecDepth 2000 in decide)
    (writeBe16 RecordType.a ++ writeBe16 internet)

theorem dottedMessage_name : NameAt dottedMessage headerSize [[0x61, dot, 0x62]] 2 5 :=
  nameAt_writeLabels (writeBe16 7 ++ [0x80, 0x00, 0x00, 0x01, 0, 0, 0, 0, 0, 0]) [[0x61, dot, 0x62]]
    (by set_option maxRecDepth 2000 in decide)
    (writeBe16 RecordType.a ++ writeBe16 internet)

theorem askedMessage_text :
    decodeName askedMessage headerSize textCapacity = .ok ([0x61, dot, 0x62], 5) := by decide

theorem dottedMessage_text :
    decodeName dottedMessage headerSize textCapacity = .ok ([0x61, dot, 0x62], 5) := by decide

theorem decoded_names_differ_asked :
    ((sameName [0x61, dot, 0x62] [0x61, dot, 0x62] = true → SameLabels [[0x61], [0x62]] [[0x61, dot, 0x62]]) ↔
      ¬Regrouped [[0x61], [0x62]] [[0x61, dot, 0x62]]) ∧
    ((∀ label ∈ ([[0x61], [0x62]] : List Label), dot ∉ label) →
      (∀ label ∈ ([[0x61, dot, 0x62]] : List Label), dot ∉ label) →
      ¬Regrouped [[0x61], [0x62]] [[0x61, dot, 0x62]]) ∧
    ((∀ name type id size query, encodeQuery name type id size = .ok query →
        sameName name [0x61, dot, 0x62] = true → SameLabels (labelsOf name) [[0x61, dot, 0x62]]) ↔
      (∀ label ∈ ([[0x61, dot, 0x62]] : List Label), dot ∉ label) ∨
        ∃ label ∈ ([[0x61, dot, 0x62]] : List Label), [] ∈ label.splitOn dot) :=
  decoded_names_differ_iff askedMessage_text dottedMessage_text askedMessage_name dottedMessage_name

/-- The client takes the response for an answer to its query. -/
theorem dotted_label_accepted :
    encodeQuery [0x61, dot, 0x62] RecordType.a 7 classicUdpLimit = .ok askedMessage ∧
    NameAt askedMessage headerSize [[0x61], [0x62]] 3 5 ∧ NameAt dottedMessage headerSize [[0x61, dot, 0x62]] 2 5 ∧
    decodeName askedMessage headerSize textCapacity = .ok ([0x61, dot, 0x62], 5) ∧
    decodeName dottedMessage headerSize textCapacity = .ok ([0x61, dot, 0x62], 5) ∧
    sameName [0x61, dot, 0x62] [0x61, dot, 0x62] = true ∧ ¬SameLabels [[0x61], [0x62]] [[0x61, dot, 0x62]] ∧
    (parseAndValidate 1 dottedMessage 7 [0x61, dot, 0x62] RecordType.a (.init 1)).1 = .ok :=
  ⟨by decide, askedMessage_name, dottedMessage_name, askedMessage_text, dottedMessage_text, by decide, by decide,
    by decide⟩

end Castle.Dns
