import Castle.Serialization.Ini.RoundTrip

/-!
# The names that `set` takes

`set` refuses the characters that end a name where it is read, but takes blanks around a name and a
key that begins like a comment.
-/

namespace Castle.Serialization.Ini

variable {cap : Capacity} {d : Document} {calls : List Entry}

/-- A call of `set`, whose failure changes nothing. -/
def setCall (cap : Capacity) (d : Document) (call : Entry) : Document :=
  match d.setEntry cap call.section_ call.key call.value with
  | .ok d' => d'
  | .error _ => d

/-- The document behind some calls of `set`, from an empty one. -/
def built (cap : Capacity) (calls : List Entry) : Document := calls.foldl (setCall cap) []

/-- What is written for a document is parsed, and has an entry under every name. -/
def NamesSurvive (cap : Capacity) (d : Document) : Prop :=
  ∃ size, ∀ maxOutput, size ≤ maxOutput → ∃ text d', serialize maxOutput d = .ok text ∧
    parse cap text = .ok d' ∧ ∀ e ∈ d, ∃ e' ∈ d', e'.name = e.name

/-- An entry that is read again: no blanks around its names, no comment character in front of its
key, and a value that is accepted. -/
structure Readable (e : Entry) : Prop where
  section_ : e.section_ = [] ∨ Trimmed e.section_
  key : Trimmed e.key
  noComment : startsWithComment e.key = false
  value : ∃ value, rereadValue e.value = some value

theorem setCall_named {call : Entry} (haccepted : ∀ e ∈ d, Accepted cap e) (hdistinct : (d.map Entry.name).Nodup)
    (hcount : d.length ≤ cap.maxEntries) : (∀ e ∈ setCall cap d call, Accepted cap e) ∧
      ((setCall cap d call).map Entry.name).Nodup ∧ (setCall cap d call).length ≤ cap.maxEntries := by
  rw [setCall]
  split
  next d' hset =>
    obtain ⟨hdistinct', hcount', hmem⟩ := setEntry_distinct hdistinct hcount hset
    refine ⟨fun e he => ?_, hdistinct', hcount'⟩
    rcases (hmem e).mp he with rfl | ⟨he, -⟩
    · exact accepted_of_setEntry hset
    · exact haccepted e he
  · exact ⟨haccepted, hdistinct, hcount⟩

theorem built_named (cap : Capacity) (calls : List Entry) : (∀ e ∈ built cap calls, Accepted cap e) ∧
    ((built cap calls).map Entry.name).Nodup ∧ (built cap calls).length ≤ cap.maxEntries := by
  rw [built]
  refine List.foldlRecOn calls (setCall cap) (motive := fun d => (∀ e ∈ d, Accepted cap e) ∧
    (d.map Entry.name).Nodup ∧ d.length ≤ cap.maxEntries) ?_ fun d hd call _ => setCall_named hd.1 hd.2.1 hd.2.2
  exact ⟨fun e he => absurd he List.not_mem_nil, List.nodup_nil, Nat.zero_le _⟩

theorem writable_built (h : ∀ e ∈ built cap calls, WellFormed cap e) : Writable cap (built cap calls) :=
  ⟨h, (built_named cap calls).2.1, (built_named cap calls).2.2⟩

theorem Readable.wellFormed {e : Entry} (h : Readable e) (haccepted : Accepted cap e) : WellFormed cap e where
  name := h.section_.imp id fun htrim => ⟨htrim, haccepted.section_.1, haccepted.section_.2⟩
  key := ⟨h.key, haccepted.key.1, haccepted.key.2, h.noComment⟩
  fits := haccepted.value

theorem WellFormed.of_name {e e' : Entry} (h : WellFormed cap e') (hname : e'.name = e.name)
    (haccepted : Accepted cap e) : WellFormed cap e := by
  obtain ⟨hsection, hkey⟩ := Prod.mk.inj hname
  exact ⟨hsection ▸ h.name, hkey ▸ h.key, haccepted.value⟩

theorem exists_rereads {entries : Document} (h : ∀ e ∈ entries, Readable e) :
    ∃ entries', List.Forall₂ Reread entries entries' := by
  induction entries with
  | nil => exact ⟨[], .nil⟩
  | cons e entries ih =>
    rw [List.forall_mem_cons] at h
    obtain ⟨value, hvalue⟩ := h.1.value
    obtain ⟨entries', hreread⟩ := ih h.2
    exact ⟨{ e with value := value } :: entries', .cons ⟨rfl, hvalue⟩ hreread⟩

/-- A document that is built by `set` is read again with all its names, exactly if all its entries
are readable. -/
theorem namesSurvive_iff (cap : Capacity) (calls : List Entry) :
    NamesSurvive cap (built cap calls) ↔ ∀ e ∈ built cap calls, Readable e := by
  have haccepted := (built_named cap calls).1
  constructor
  · rintro ⟨size, hsize⟩
    obtain ⟨text, d', hwrite, hread, hnames⟩ :=
      hsize (max size (documentText (built cap calls)).length) (Nat.le_max_left _ _)
    rw [serialize_eq _ (Nat.le_max_right _ _)] at hwrite
    cases hwrite
    -- the names that are read are those that can be written
    have hwell : ∀ e ∈ built cap calls, WellFormed cap e := by
      intro e he
      obtain ⟨e', he', hname⟩ := hnames e he
      exact ((parse_sound hread).1.entries e' he').of_name hname (haccepted e he)
    intro e he
    obtain ⟨e', -, hreread⟩ :=
      reread_of_mem ((parse_documentText (writable_built hwell)).mp hread) (mem_grouped.mpr he)
    exact ⟨(hwell e he).name.imp id SectionName.trimmed, (hwell e he).key.trimmed, (hwell e he).key.noComment,
      ⟨_, hreread.2⟩⟩
  · intro hreadable
    have hwell := fun e he => (hreadable e he).wellFormed (haccepted e he)
    obtain ⟨d', hrereads⟩ := exists_rereads fun e he => hreadable e (mem_grouped.mp he)
    refine ⟨_, fun maxOutput hroom => ⟨_, d', serialize_eq _ hroom,
      (parse_documentText (writable_built hwell)).mpr hrereads, fun e he => ?_⟩⟩
    obtain ⟨e', he', hreread⟩ := reread_of_mem hrereads (mem_grouped.mpr he)
    exact ⟨e', he', hreread.1⟩

/-- The key `#a` -/
theorem comment_key_lost : built smallCapacity [⟨[], [hash, 0x61], [0x31]⟩] = [⟨[], [hash, 0x61], [0x31]⟩] ∧
    parse smallCapacity (documentText [⟨[], [hash, 0x61], [0x31]⟩]) = .ok [] ∧
    ¬NamesSurvive smallCapacity (built smallCapacity [⟨[], [hash, 0x61], [0x31]⟩]) := by
  have hbuilt : built smallCapacity [⟨[], [hash, 0x61], [0x31]⟩] = [⟨[], [hash, 0x61], [0x31]⟩] := by decide
  have hparse : parse smallCapacity (documentText [⟨[], [hash, 0x61], [0x31]⟩]) = .ok [] := by decide
  refine ⟨hbuilt, hparse, ?_⟩
  rw [hbuilt]
  rintro ⟨size, hsize⟩
  obtain ⟨text, d', hwrite, hread, hnames⟩ := hsize _ (Nat.le_max_left size 20)
  rw [serialize_eq _ (le_trans (by decide) (Nat.le_max_right size 20))] at hwrite
  cases hwrite
  rw [hparse] at hread
  cases hread
  obtain ⟨e', he', -⟩ := hnames _ (List.mem_singleton_self _)
  cases he'

end Castle.Serialization.Ini
