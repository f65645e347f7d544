import Mathlib.Data.List.SplitOn
import Castle.Coap.RoundTrip
import Castle.Lib.Table

/-!
# Paths of resources (`types.hpp`, `append_uri_path` and `uri_path_matches`; `server.hpp`)

A path is a string without its terminator, `none` for `nullptr`. The cursor into a path is the
part of it that is left.
-/

namespace Castle.Coap

/-- `option_number::uri_path` -/
def uriPathNumber : UInt16 := 11

def slash : UInt8 := 0x2f

def skipSlashes (path : Bytes) : Bytes := path.dropWhile (· = slash)

/-- The bytes in front of the next slash. -/
def segmentOf (path : Bytes) : Bytes := path.takeWhile (· ≠ slash)

/-- The loop of `append_uri_path`. Every pass takes a byte, and the fuel is their number. -/
def appendSegments (cap : MessageCapacity) : ℕ → Message → Bytes → Status × Message
  | 0, target, _ => (.ok, target)
  | fuel + 1, target, path =>
    if path = [] then (.ok, target)
    else
      let segment := segmentOf path
      let rest := skipSlashes (path.drop segment.length)
      if segment = [] then appendSegments cap fuel target rest
      else
        let next := target.appendOption cap uriPathNumber (some segment)
        if next.1 ≠ .ok then next else appendSegments cap fuel next.2 rest

def appendUriPath (cap : MessageCapacity) (target : Message) (path : Option Bytes) : Status × Message :=
  match path with
  | none => (.invalidArgument, target)
  | some path => appendSegments cap path.length target (skipSlashes path)

/-- The loop of `uri_path_matches` over the options, with the number of Uri-Path options so far. -/
def matchOptions : List MessageOption → Bytes → ℕ → Bool
  | [], path, optionIndex => skipSlashes path = [] && optionIndex ≠ 0
  | option :: options, path, optionIndex =>
    if option.number ≠ uriPathNumber then matchOptions options path optionIndex
    else
      let path := skipSlashes path
      let segment := segmentOf path
      if segment ≠ option.value then false
      else matchOptions options (path.drop segment.length) (optionIndex + 1)

def uriPathMatches (request : Message) (path : Option Bytes) : Bool :=
  match path with
  | none => false
  | some path => matchOptions request.options (skipSlashes path) 0

/-- What a request says about the path. -/
def uriPathValues (options : List MessageOption) : List Bytes :=
  (options.filter fun option => option.number = uriPathNumber).map MessageOption.value

/-- The parts of a path between slashes. -/
def pathSegments (path : Bytes) : List Bytes := (path.splitOn slash).filter (· ≠ [])

variable (path : Bytes)

theorem pathSegments_slash : pathSegments (slash :: path) = pathSegments path := by
  have hsplit : (slash :: path).splitOn slash = [] :: path.splitOn slash :=
    List.splitOn_append_cons_self_of_not_mem (List.not_mem_nil (a := slash)) path
  rw [pathSegments, hsplit, List.filter_cons_of_neg (by simp), pathSegments]

theorem pathSegments_skipSlashes : pathSegments (skipSlashes path) = pathSegments path := by
  induction path with
  | nil => rfl
  | cons byte path ih =>
    rw [skipSlashes, List.dropWhile_cons]
    split
    next h =>
      rw [of_decide_eq_true h, pathSegments_slash, ← ih, skipSlashes]
    · rfl

theorem pathSegments_nil : pathSegments [] = [] := by decide

theorem slash_not_mem_segmentOf : slash ∉ segmentOf path := by
  intro h
  have hne := List.mem_takeWhile_imp h
  simp at hne

theorem drop_segmentOf : path.drop (segmentOf path).length = path.dropWhile (· ≠ slash) := by
  have happend : segmentOf path ++ path.dropWhile (· ≠ slash) = path := List.takeWhile_append_dropWhile
  calc path.drop (segmentOf path).length
      = (segmentOf path ++ path.dropWhile (· ≠ slash)).drop (segmentOf path).length := by rw [happend]
    _ = path.dropWhile (· ≠ slash) := List.drop_left

variable {path : Bytes}

theorem pathSegments_cons (h : segmentOf path ≠ []) :
    pathSegments path = segmentOf path :: pathSegments (path.drop (segmentOf path).length) := by
  have happend : segmentOf path ++ path.dropWhile (· ≠ slash) = path := List.takeWhile_append_dropWhile
  have hslash := slash_not_mem_segmentOf path
  rw [drop_segmentOf]
  cases hrest : path.dropWhile (· ≠ slash) with
  | nil =>
    rw [hrest, List.append_nil] at happend
    rw [happend] at hslash h ⊢
    rw [pathSegments_nil, pathSegments, List.splitOn_eq_singleton hslash, List.filter_cons_of_pos (by simpa using h),
      List.filter_nil]
  | cons byte rest =>
    have hbyte : byte = slash := by
      have hne : path.dropWhile (· ≠ slash) ≠ [] := by
        rw [hrest]
        exact List.cons_ne_nil _ _
      have hfirst : (path.dropWhile (· ≠ slash)).head hne = byte := by simp only [hrest, List.head_cons]
      have hhead := List.head_dropWhile_not (· ≠ slash) hne
      rw [hfirst] at hhead
      simpa using hhead
    subst hbyte
    rw [hrest] at happend
    have hsplit := List.splitOn_append_cons_self_of_not_mem hslash rest
    rw [happend] at hsplit
    rw [pathSegments_slash, pathSegments, hsplit, List.filter_cons_of_pos (by simpa using h), pathSegments]

theorem segmentOf_eq_nil_iff : segmentOf (skipSlashes path) = [] ↔ skipSlashes path = [] := by
  constructor
  · intro h
    by_contra hne
    have hhead := List.head_dropWhile_not (· = slash) hne
    have hcons := List.cons_head_tail hne
    rw [← hcons, segmentOf, List.takeWhile_cons_of_pos] at h
    · cases h
    · exact decide_eq_true (of_decide_eq_false hhead)
  · intro h
    rw [h]
    rfl

theorem pathSegments_eq_nil_iff : pathSegments path = [] ↔ skipSlashes path = [] := by
  rw [← pathSegments_skipSlashes]
  constructor
  · intro h
    by_contra hne
    rw [pathSegments_cons (fun hnil => hne (segmentOf_eq_nil_iff.mp hnil))] at h
    cases h
  · intro h
    rw [h, pathSegments_nil]

theorem ne_nil_of_mem_pathSegments {segment : Bytes} (h : segment ∈ pathSegments path) :
    segment ≠ [] := by
  have hne := (List.mem_filter.mp h).2
  simpa using hne

variable (options : List MessageOption)

theorem uriPathValues_append (options' : List MessageOption) :
    uriPathValues (options ++ options') = uriPathValues options ++ uriPathValues options' := by
  rw [uriPathValues, List.filter_append, List.map_append, uriPathValues, uriPathValues]

theorem uriPathValues_cons (option : MessageOption) (options : List MessageOption) :
    uriPathValues (option :: options) =
      if option.number = uriPathNumber then option.value :: uriPathValues options else uriPathValues options := by
  rw [uriPathValues, List.filter_cons]
  split
  next h => rw [if_pos (of_decide_eq_true h), List.map_cons, uriPathValues]
  next h => rw [if_neg (of_decide_eq_false (Bool.not_eq_true _ ▸ h)), uriPathValues]

theorem uriPathValues_insertOption (segment : Bytes) :
    uriPathValues (insertOption options ⟨uriPathNumber, segment⟩) = uriPathValues options ++ [segment] := by
  have hbehind : uriPathValues (options.rtakeWhile fun other => other.number > uriPathNumber) = [] := by
    rw [uriPathValues, List.map_eq_nil_iff, List.filter_eq_nil_iff]
    intro other hother hsame
    have hlarger := List.mem_rtakeWhile_imp hother
    rw [of_decide_eq_true hsame] at hlarger
    exact absurd (of_decide_eq_true hlarger) (UInt16.lt_irrefl _)
  have hfront : uriPathValues (options.rdropWhile fun other => other.number > uriPathNumber) = uriPathValues options := by
    conv_rhs => rw [← List.rdropWhile_append_rtakeWhile (l := options)
      (p := fun other => decide (other.number > uriPathNumber)), uriPathValues_append, hbehind, List.append_nil]
  rw [insertOption, uriPathValues_append, hfront, uriPathValues_cons, if_pos rfl, hbehind]

theorem rest_length_lt (h : path ≠ []) :
    (skipSlashes (path.drop (segmentOf path).length)).length < path.length := by
  cases path with
  | nil => exact absurd rfl h
  | cons byte path =>
    rw [List.length_cons, Nat.lt_succ_iff]
    by_cases hslash : byte = slash
    · rw [segmentOf, List.takeWhile_cons_of_neg (by simpa using hslash), List.length_nil, List.drop_zero, skipSlashes,
        List.dropWhile_cons_of_pos (by simpa using hslash)]
      exact (List.dropWhile_suffix _).length_le
    · rw [segmentOf, List.takeWhile_cons_of_pos (by simpa using hslash), List.length_cons, List.drop_succ_cons]
      exact ((List.dropWhile_suffix _).trans (List.drop_suffix _ _)).length_le

variable {cap : MessageCapacity}

theorem appendSegments_values (fuel : ℕ) {target target' : Message} (hfuel : path.length ≤ fuel)
    (h : appendSegments cap fuel target path = (.ok, target')) :
    uriPathValues target'.options = uriPathValues target.options ++ pathSegments path := by
  induction fuel generalizing target path with
  | zero =>
    rw [List.length_eq_zero_iff.mp (Nat.le_zero.mp hfuel)] at h ⊢
    cases h
    rw [pathSegments_nil, List.append_nil]
  | succ fuel ih =>
    rw [appendSegments] at h
    split at h
    next hnil =>
      cases h
      rw [hnil, pathSegments_nil, List.append_nil]
    next hne =>
      have hlt := rest_length_lt hne
      have hshort : (skipSlashes (path.drop (segmentOf path).length)).length ≤ fuel := by omega
      dsimp only at h
      split at h
      next hnil =>
        have hrest := ih hshort h
        rw [hnil, List.length_nil, List.drop_zero, pathSegments_skipSlashes] at hrest
        exact hrest
      next hsegment =>
        split at h
        next hbad =>
          rw [h] at hbad
          exact absurd rfl hbad
        next hok =>
          rw [not_not] at hok
          have hrest := ih hshort h
          have hnext : target.appendOption cap uriPathNumber (some (segmentOf path)) =
              (.ok, (target.appendOption cap uriPathNumber (some (segmentOf path))).2) := Prod.ext hok rfl
          have hoptions := congrArg Message.options (appendOption_ok hnext).2.2.2
          dsimp only at hoptions
          rw [hrest, pathSegments_skipSlashes, pathSegments_cons hsegment, hoptions, uriPathValues_insertOption,
            List.append_assoc, List.singleton_append]

theorem appendUriPath_values {target target' : Message}
    (h : appendUriPath cap target (some path) = (.ok, target')) :
    uriPathValues target'.options = uriPathValues target.options ++ pathSegments path := by
  rw [← pathSegments_skipSlashes path]
  exact appendSegments_values path.length (List.dropWhile_suffix _).length_le h

theorem matchOptions_iff {optionIndex : ℕ} : matchOptions options path optionIndex =
    true ↔ (∃ k, uriPathValues options = pathSegments path ++ List.replicate k []) ∧
    optionIndex + (uriPathValues options).length ≠ 0 := by
  induction options generalizing path optionIndex with
  | nil =>
    have hend : (∃ k, [] = pathSegments path ++ List.replicate k ([] : Bytes)) ↔ skipSlashes path = [] := by
      rw [← pathSegments_eq_nil_iff]
      constructor
      · rintro ⟨k, hk⟩
        exact (List.append_eq_nil_iff.mp hk.symm).1
      · intro h
        exact ⟨0, by rw [h]; rfl⟩
    rw [matchOptions, Bool.and_eq_true, decide_eq_true_eq, decide_eq_true_eq, ← hend]
    rfl
  | cons option options ih =>
    rw [matchOptions, uriPathValues_cons]
    by_cases hnumber : option.number = uriPathNumber
    · rw [if_neg (not_not.mpr hnumber), if_pos hnumber]
      dsimp only
      have hindex : optionIndex + (option.value :: uriPathValues options).length ≠ 0 := by
        rw [List.length_cons]
        omega
      have hnext : optionIndex + 1 + (uriPathValues options).length ≠ 0 := by omega
      rw [and_iff_left hindex]
      by_cases hend : skipSlashes path = []
      · -- behind the end of the path every value has to be empty
        have hnone : pathSegments path = [] := pathSegments_eq_nil_iff.mpr hend
        have hempty : segmentOf [] = [] := rfl
        rw [hend, hnone, hempty, List.length_nil, List.drop_zero]
        simp only [List.nil_append]
        by_cases hvalue : option.value = []
        · rw [if_neg (not_not.mpr hvalue.symm), ih, and_iff_left hnext, pathSegments_nil, hvalue]
          simp only [List.nil_append]
          constructor
          · rintro ⟨k, hk⟩
            exact ⟨k + 1, by rw [hk, List.replicate_succ]⟩
          · rintro ⟨k, hk⟩
            cases k with
            | zero => cases hk
            | succ k => exact ⟨k, (List.cons.inj hk).2⟩
        · rw [if_pos (Ne.symm hvalue)]
          simp only [Bool.false_eq_true, false_iff, not_exists]
          intro k hk
          exact hvalue (List.eq_of_mem_replicate (hk ▸ List.mem_cons_self))
      · have hsegment : segmentOf (skipSlashes path) ≠ [] := fun h => hend (segmentOf_eq_nil_iff.mp h)
        rw [← pathSegments_skipSlashes path, pathSegments_cons hsegment]
        by_cases hvalue : segmentOf (skipSlashes path) = option.value
        · rw [if_neg (not_not.mpr hvalue), ih, and_iff_left hnext, hvalue]
          simp [List.cons_append, List.cons.injEq, true_and]
        · rw [if_pos hvalue]
          simp only [List.cons_append, List.cons.injEq, Bool.false_eq_true, false_iff, not_exists, not_and]
          exact fun _ h => absurd h.symm hvalue
    · rw [if_pos hnumber, if_neg hnumber, ih]

theorem uriPathMatches_iff {request : Message} (h : pathSegments path ≠ []) :
    uriPathMatches request (some path) = true ↔
      ∃ k, uriPathValues request.options = pathSegments path ++ List.replicate k [] := by
  rw [uriPathMatches, matchOptions_iff, pathSegments_skipSlashes]
  refine and_iff_left_of_imp ?_
  rintro ⟨k, hk⟩
  rw [hk, List.length_append]
  have hpos := List.length_pos_iff.mpr h
  omega

/-- A slot of the table; the callback is left out. -/
structure Resource where
  path : Bytes := []
  methods : UInt8 := 0
  maxAgeSeconds : UInt32 := 60
  used : Bool := false
  deriving DecidableEq

def allowAllMethods : UInt8 := 0x0f

structure ResourceTable (maxResources : ℕ) where
  resources : Table maxResources Resource
  resourceCount : ℕ
  deriving DecidableEq

namespace ResourceTable

variable {n : ℕ} (t : ResourceTable n)

def init (n : ℕ) : ResourceTable n := ⟨.replicate n {}, 0⟩

/-- `find_resource` of a path, for `register_resource` and the other calls. -/
def findResource (path : Bytes) : Option (Fin n) := t.resources.firstIdx fun item => item.used && item.path = path

/-- `find_resource` of a request. -/
def findRequested (request : Message) : Option (Fin n) :=
  t.resources.firstIdx fun item => item.used && uriPathMatches request (some item.path)

/-- `callback` tells whether a callable is given. -/
def registerResource (maxPathLength : ℕ) (path : Option Bytes) (methods : UInt8) (callback : Bool) :
    Status × ResourceTable n :=
  match path with
  | none => (.invalidArgument, t)
  | some path =>
    if path = [] || methods = 0 || methods &&& ~~~allowAllMethods ≠ 0 then (.invalidArgument, t)
    else if !callback then (.invalidCallback, t)
    else if path.length ≥ maxPathLength then (.outOfRange, t)
    else
      let path := skipSlashes path
      if path = [] then (.invalidArgument, t)
      else
        let store (t : ResourceTable n) (slot : Fin n) : ResourceTable n :=
          { t with resources := t.resources.modify slot fun item =>
              { item with path := path, methods := methods, used := true } }
        match t.findResource path with
        | some slot => (.ok, store t slot)
        | none =>
          match t.resources.firstIdx fun item => !item.used with
          | none => (.full, t)
          | some slot => (.ok, store { t with resourceCount := t.resourceCount + 1 } slot)

def unregisterResource (path : Option Bytes) : Status × ResourceTable n :=
  match path with
  | none => (.invalidArgument, t)
  | some path =>
    match t.findResource (skipSlashes path) with
    | none => (.notFound, t)
    | some slot =>
      (.ok, ⟨t.resources.modify slot fun item => { item with used := false }, t.resourceCount - 1⟩)

def setResourceMaxAge (path : Option Bytes) (seconds : UInt32) : Status × ResourceTable n :=
  match path with
  | none => (.invalidArgument, t)
  | some path =>
    match t.findResource (skipSlashes path) with
    | none => (.notFound, t)
    | some slot =>
      (.ok, { t with resources := t.resources.modify slot fun item => { item with maxAgeSeconds := seconds } })

/-- The tables that calls lead to. -/
inductive Reachable (maxPathLength : ℕ) : ResourceTable n → Prop
  | init : Reachable maxPathLength (.init n)
  | register {t : ResourceTable n} (h : Reachable maxPathLength t) (path : Option Bytes) (methods : UInt8)
    (callback : Bool) : Reachable maxPathLength (t.registerResource maxPathLength path methods callback).2
  | unregister {t : ResourceTable n} (h : Reachable maxPathLength t) (path : Option Bytes) :
    Reachable maxPathLength (t.unregisterResource path).2
  | maxAge {t : ResourceTable n} (h : Reachable maxPathLength t) (path : Option Bytes) (seconds : UInt32) :
    Reachable maxPathLength (t.setResourceMaxAge path seconds).2

/-- Resources in use have a path that does not begin with a slash. -/
def Sound : Prop :=
  ∀ i, (t.resources.get i).used = true →
    (t.resources.get i).path ≠ [] ∧ skipSlashes (t.resources.get i).path = (t.resources.get i).path

variable {t}

theorem Sound.modify (h : t.Sound) (slot : Fin n) {f : Resource → Resource} {count : ℕ}
    (hf : (f (t.resources.get slot)).used = true →
      (f (t.resources.get slot)).path ≠ [] ∧
        skipSlashes (f (t.resources.get slot)).path = (f (t.resources.get slot)).path) :
    (ResourceTable.mk (t.resources.modify slot f) count).Sound := by
  intro i hused
  dsimp only at hused ⊢
  rw [Table.get_modify] at hused ⊢
  split at hused
  next hi =>
    subst hi
    rw [if_pos rfl]
    exact hf hused
  next hi =>
    rw [if_neg hi]
    exact h i hused

theorem skipSlashes_idem (path : Bytes) : skipSlashes (skipSlashes path) = skipSlashes path :=
  List.dropWhile_idempotent _ path

variable {maxPathLength : ℕ}

theorem registerResource_cases {path : Option Bytes} {methods : UInt8} {callback : Bool} :
    (t.registerResource maxPathLength path methods callback).1 ≠ .ok ∧
        (t.registerResource maxPathLength path methods callback).2 = t ∨
      (t.registerResource maxPathLength path methods callback).1 = .ok ∧
        ∃ name slot count, path = some name ∧ skipSlashes name ≠ [] ∧
          (t.registerResource maxPathLength path methods callback).2 =
            ⟨t.resources.modify slot fun item => { item with path := skipSlashes name, methods := methods, used := true },
              count⟩ := by
  cases path with
  | none => exact .inl ⟨by simp [registerResource], rfl⟩
  | some name =>
    rw [registerResource]
    dsimp only
    split
    · exact .inl ⟨by simp, rfl⟩
    · split
      · exact .inl ⟨by simp, rfl⟩
      · split
        · exact .inl ⟨by simp, rfl⟩
        · split
          · exact .inl ⟨by simp, rfl⟩
          next hname =>
            cases t.findResource (skipSlashes name) with
            | some slot => exact .inr ⟨rfl, name, slot, _, rfl, hname, rfl⟩
            | none =>
              cases t.resources.firstIdx fun item => !item.used with
              | none => exact .inl ⟨by simp, rfl⟩
              | some slot => exact .inr ⟨rfl, name, slot, _, rfl, hname, rfl⟩

theorem Reachable.sound (h : t.Reachable maxPathLength) : t.Sound := by
  induction h with
  | init =>
    intro i hused
    rw [ResourceTable.init, Table.get_replicate] at hused
    cases hused
  | register h path methods callback ih =>
    rcases registerResource_cases with ⟨_, hsame⟩ | ⟨_, name, slot, count, _, hname, hstore⟩
    · rw [hsame]
      exact ih
    · rw [hstore]
      exact ih.modify slot fun _ => ⟨hname, skipSlashes_idem name⟩
  | @unregister t h path ih =>
    cases path with
    | none => exact ih
    | some path =>
      rw [unregisterResource]
      cases t.findResource (skipSlashes path) with
      | none => exact ih
      | some slot => exact ih.modify slot fun hused => by cases hused
  | @maxAge t h path seconds ih =>
    cases path with
    | none => exact ih
    | some path =>
      rw [setResourceMaxAge]
      cases t.findResource (skipSlashes path) with
      | none => exact ih
      | some slot => exact ih.modify slot fun hused => ih slot hused

theorem Reachable.pathSegments_ne (h : t.Reachable maxPathLength) {i : Fin n}
    (hused : (t.resources.get i).used = true) : pathSegments (t.resources.get i).path ≠ [] := by
  obtain ⟨hne, hskip⟩ := h.sound i hused
  rw [ne_eq, pathSegments_eq_nil_iff, hskip]
  exact hne

end ResourceTable

def TrailingEmpty (request : Message) (path : Bytes) : Prop :=
  ∃ k, uriPathValues request.options = pathSegments path ++ List.replicate (k + 1) []

/-- Segments that are written are not empty, so a written path never has empty segments at its end. -/
theorem not_trailingEmpty_of_written {target target' : Message} {resource : Bytes}
    (hnew : uriPathValues target.options = [])
    (h : appendUriPath cap target (some path) = (.ok, target')) :
    ¬TrailingEmpty target' resource := by
  rintro ⟨k, hk⟩
  have hwritten := appendUriPath_values h
  rw [hnew, List.nil_append] at hwritten
  have hmem : [] ∈ pathSegments path := by
    rw [← hwritten, hk]
    exact List.mem_append_right _ (List.mem_replicate.mpr ⟨Nat.succ_ne_zero k, rfl⟩)
  exact ne_nil_of_mem_pathSegments hmem rfl

theorem uriPathMatches_exact {request : Message} (hpath : pathSegments path ≠ []) :
    (uriPathMatches request (some path) = true ↔ uriPathValues request.options = pathSegments path) ↔
      ¬TrailingEmpty request path := by
  rw [uriPathMatches_iff hpath]
  constructor
  · rintro h ⟨k, hk⟩
    have hsame := h.mp ⟨k + 1, hk⟩
    have hlength := congrArg List.length (hk.symm.trans hsame)
    rw [List.length_append, List.length_replicate] at hlength
    omega
  · intro h
    constructor
    · rintro ⟨k, hk⟩
      cases k with
      | zero => rwa [List.replicate_zero, List.append_nil] at hk
      | succ k => exact absurd ⟨k, hk⟩ h
    · intro hsame
      exact ⟨0, by rw [hsame, List.replicate_zero, List.append_nil]⟩

/-- A resource is found by the segments of its path, except that a request may have empty segments
behind them. -/
theorem uriPath_routes {n maxPathLength : ℕ} {t : ResourceTable n} (h : t.Reachable maxPathLength) :
    (∀ i, (t.resources.get i).used = true → ∀ request,
      ((uriPathMatches request (some (t.resources.get i).path) = true ↔
        uriPathValues request.options = pathSegments (t.resources.get i).path) ↔
        ¬TrailingEmpty request (t.resources.get i).path)) ∧
    (∀ i, (t.resources.get i).used = true → ∀ request request',
      ¬TrailingEmpty request (t.resources.get i).path → ¬TrailingEmpty request' (t.resources.get i).path →
      uriPathMatches request (some (t.resources.get i).path) = true →
      uriPathMatches request' (some (t.resources.get i).path) = true →
      uriPathValues request.options = uriPathValues request'.options) ∧
    (∀ cap target target' path, uriPathValues target.options = [] →
      appendUriPath cap target (some path) = (.ok, target') →
      uriPathValues target'.options = pathSegments path ∧
        ∀ i, (t.resources.get i).used = true →
          (uriPathMatches target' (some (t.resources.get i).path) = true ↔
            pathSegments path = pathSegments (t.resources.get i).path)) ∧
    ∀ path methods callback, (t.registerResource maxPathLength (some path) methods callback).1 = .ok →
      ∃ i, (((t.registerResource maxPathLength (some path) methods callback).2).resources.get i).used = true ∧
        pathSegments (((t.registerResource maxPathLength (some path) methods callback).2).resources.get i).path =
          pathSegments path := by
  have hexact : ∀ i, (t.resources.get i).used = true → ∀ request,
      ((uriPathMatches request (some (t.resources.get i).path) = true ↔
        uriPathValues request.options = pathSegments (t.resources.get i).path) ↔
        ¬TrailingEmpty request (t.resources.get i).path) :=
    fun i hused request => uriPathMatches_exact (h.pathSegments_ne hused)
  refine ⟨hexact, ?_, ?_, ?_⟩
  · intro i hused request request' hend hend' hmatch hmatch'
    rw [((hexact i hused request).mpr hend).mp hmatch, ((hexact i hused request').mpr hend').mp hmatch']
  · intro cap target target' path hnew happend
    have hwritten := appendUriPath_values happend
    rw [hnew, List.nil_append] at hwritten
    refine ⟨hwritten, fun i hused => ?_⟩
    rw [(hexact i hused target').mpr (not_trailingEmpty_of_written hnew happend), hwritten]
  · intro path methods callback hok
    rcases ResourceTable.registerResource_cases (t := t) with ⟨hbad, _⟩ | ⟨_, name, slot, count, hname, _, hstore⟩
    · exact absurd hok hbad
    · cases hname
      refine ⟨slot, ?_⟩
      rw [hstore, Table.get_modify_self]
      exact ⟨rfl, pathSegments_skipSlashes path⟩

theorem uriPath_routes_registered :
    (uriPathMatches { options := [⟨11, [0x61]⟩] } (some [0x61]) = true ↔
      uriPathValues [⟨11, [0x61]⟩] = pathSegments [0x61]) ↔ ¬TrailingEmpty { options := [⟨11, [0x61]⟩] } [0x61] := by
  have hinit : ResourceTable.Reachable 96 (.init 1) := .init
  exact (uriPath_routes (hinit.register (some [0x2f, 0x61]) 0x0f true)).1 0 rfl _

/-- A resource for `a` answers requests for `a` and for `a/`. -/
theorem trailing_segment_matches :
    ((ResourceTable.init 1).registerResource 96 (some [0x61]) 0x0f true).1 = .ok ∧
      (((ResourceTable.init 1).registerResource 96 (some [0x61]) 0x0f true).2.resources.get 0).path = [0x61] ∧
      uriPathMatches { options := [⟨11, [0x61]⟩] } (some [0x61]) = true ∧
      uriPathMatches { options := [⟨11, [0x61]⟩, ⟨11, []⟩] } (some [0x61]) = true ∧
      uriPathValues [⟨11, [0x61]⟩] = pathSegments [0x61] ∧
      uriPathValues [⟨11, [0x61]⟩, ⟨11, []⟩] ≠ pathSegments [0x61] := by
  decide

end Castle.Coap
