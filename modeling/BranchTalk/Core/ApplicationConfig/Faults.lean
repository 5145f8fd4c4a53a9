import BranchTalk.Core.ApplicationConfig.Outcomes

set_option autoImplicit false

/-! # Which fault is reported

A rejected object may have several faults, and only the first is reported: that of the first unsupported
name, then those of the fields in their order. The message tells which member to remove. -/

namespace BranchTalk.Core.ApplicationConfig

open Json (Value Member)

/-! ## Faults -/

/-- What is wrong with a member by itself. -/
def fault : Member → Option Bytes
  | (name, v) =>
      if !kSupportedFields.contains name then some (ascii "unsupported configuration field: " ++ name)
      else
        match v with
        | .string s =>
            if name = ascii "log_level" then
              if (parseLogLevel s).isSome then none
              else some
                (ascii "log_level must be one of: trace, debug, info, warning, error, critical, off")
            else if hasNonWhitespace s then none
            else some (name ++ ascii " must not be empty")
        | _ => some (name ++ ascii " must be a string")

def unsupported (m : Member) : Bool := !kSupportedFields.contains m.1

/-- The members in the order in which they are checked. -/
def checked (members : List Member) : List Member :=
  members.filter unsupported ++
    kSupportedFields.filterMap fun name => (members.lookup name).map (Prod.mk name)

/-- The names at fault, with what is wrong. -/
def faults (members : List Member) : List (Bytes × Bytes) :=
  (checked members).filterMap fun m => (fault m).map (Prod.mk m.1)

/-- What is wrong with the value found under a name. -/
def fieldFault (members : List Member) (name : Bytes) : Option Bytes :=
  (members.lookup name).bind fun v => fault (name, v)

/-! ## The first fault -/

/-- The function ends with this fault, or succeeds where there is none. -/
def EndsWith {α : Type} (x : Loading α) : Option Bytes → Prop
  | some message => x.run = .ok (.error ⟨.invalidArgument, message⟩)
  | none => Succeeds x

theorem endsWith_invalidConfig {α : Type} (message : Bytes) :
    EndsWith (invalidConfig message : Loading α) (some message) := rfl

theorem endsWith_bind {α β : Type} {x : Loading α} {f : α → Loading β} {first second : Option Bytes}
    (hx : EndsWith x first) (hf : ∀ a, EndsWith (f a) second) :
    EndsWith (x >>= f) (first <|> second) := by
  cases first with
  | some message => exact run_bind_eq_iff.mpr (Or.inl ⟨_, hx, rfl⟩)
  | none =>
      obtain ⟨a, ha⟩ := hx
      have hfa := hf a
      cases second with
      | some message => exact run_bind_eq_iff.mpr (Or.inr ⟨a, ha, hfa⟩)
      | none =>
          obtain ⟨b, hb⟩ := hfa
          exact ⟨b, run_bind_eq_ok_iff.mpr ⟨a, ha, hb⟩⟩

theorem withText_endsWith {field : Bytes} (hfield : kSupportedFields.contains field = true)
    (hlevel : field ≠ ascii "log_level") (store : ApplicationConfig → Bytes → ApplicationConfig)
    (members : List Member) (config : ApplicationConfig) :
    EndsWith (withText field store (.object members) config) (fieldFault members field) := by
  rw [withText_eq, fieldFault, find, items]
  cases members.lookup field with
  | none => exact succeeds_pure config
  | some v =>
      cases v with
      | string s =>
          simp only [Option.bind_some, fault, hfield, hlevel]
          cases hasNonWhitespace s with
          | false => exact endsWith_invalidConfig _
          | true => exact succeeds_pure _
      | _ =>
          simp only [Option.bind_some, fault, hfield]
          exact endsWith_invalidConfig _

theorem withLogLevel_endsWith (members : List Member) (config : ApplicationConfig) :
    EndsWith (withLogLevel (.object members) config) (fieldFault members (ascii "log_level")) := by
  have hfield : kSupportedFields.contains (ascii "log_level") = true := by decide +kernel
  rw [withLogLevel_eq, fieldFault, find, items]
  cases members.lookup (ascii "log_level") with
  | none => exact succeeds_pure config
  | some v =>
      cases v with
      | string s =>
          simp only [Option.bind_some, fault, hfield]
          cases parseLogLevel s with
          | none => exact endsWith_invalidConfig _
          | some level => exact succeeds_pure _
      | _ =>
          simp only [Option.bind_some, fault, hfield]
          exact endsWith_invalidConfig _

theorem fault_of_unsupported {m : Member} (h : unsupported m = true) :
    fault m = some (ascii "unsupported configuration field: " ++ m.1) := by
  obtain ⟨name, v⟩ := m
  exact if_pos h

/-- The texts of the faults in a supported field. -/
theorem fault_cases {name : Bytes} {v : Value} {message : Bytes}
    (hname : kSupportedFields.contains name = true) (h : fault (name, v) = some message) :
    name = ascii "log_level" ∧ message =
        ascii "log_level must be one of: trace, debug, info, warning, error, critical, off" ∨
      message = name ++ ascii " must not be empty" ∨ message = name ++ ascii " must be a string" := by
  simp only [fault, hname, Bool.not_true, Bool.false_eq_true, if_false] at h
  split at h
  · split at h
    · next hlevel =>
        split at h
        · cases h
        · exact Or.inl ⟨hlevel, (Option.some.inj h).symm⟩
    · split at h
      · cases h
      · exact Or.inr (Or.inl (Option.some.inj h).symm)
  · exact Or.inr (Or.inr (Option.some.inj h).symm)

theorem faults_of_supported {members : List Member} (h : members.find? unsupported = none) :
    faults members =
      kSupportedFields.filterMap fun name => (fieldFault members name).map (Prod.mk name) := by
  have hnone : members.filter unsupported = [] := by
    rw [List.filter_eq_nil_iff]
    exact List.find?_eq_none.mp h
  rw [faults, checked, hnone, List.nil_append, List.filterMap_filterMap]
  congr 1
  funext name
  unfold fieldFault
  cases members.lookup name <;> rfl

/-- The reports of the three fields, in the order of the checks. -/
theorem head?_fieldFaults (members : List Member) :
    ((kSupportedFields.filterMap fun name =>
        (fieldFault members name).map (Prod.mk name)).head?).map Prod.snd =
      (fieldFault members (ascii "server_address") <|>
        (fieldFault members (ascii "log_level") <|> fieldFault members (ascii "data_path"))) := by
  simp only [kSupportedFields, List.filterMap_cons, List.filterMap_nil]
  cases fieldFault members (ascii "server_address") <;>
    cases fieldFault members (ascii "log_level") <;>
      cases fieldFault members (ascii "data_path") <;> rfl

/-- **The first fault is reported**, and an object without one is accepted. -/
theorem parse_endsWith (members : List Member) :
    EndsWith (parseApplicationConfig (.object members)) ((faults members).head?.map Prod.snd) := by
  rw [parse_object]
  cases hfind : members.find? unsupported with
  | some item =>
      have hitem : (members.find? fun item => !kSupportedFields.contains item.1) = some item := hfind
      rw [hitem]
      have hhead : (members.filter unsupported).head? = some item := by
        rw [List.head?_filter, hfind]
      obtain ⟨rest, hrest⟩ := List.head?_eq_some_iff.mp hhead
      have hfault := fault_of_unsupported (List.find?_some hfind)
      have hfaults : (faults members).head? =
          some (item.1, ascii "unsupported configuration field: " ++ item.1) := by
        simp [faults, checked, hrest, hfault]
      rw [hfaults]
      exact endsWith_invalidConfig _
  | none =>
      have hnone : (members.find? fun item => !kSupportedFields.contains item.1) = none := hfind
      rw [hnone, faults_of_supported hfind, head?_fieldFaults]
      refine endsWith_bind ?_ fun config => endsWith_bind ?_ fun config => ?_
      · exact withText_endsWith (by decide +kernel) (by decide +kernel) _ _ _
      · exact withLogLevel_endsWith members config
      · exact withText_endsWith (by decide +kernel) (by decide +kernel) _ _ _

/-! ## The member to remove -/

/-- The name that a message is about. -/
def blamed (message : Bytes) : Bytes :=
  let unsupportedName := ascii "unsupported configuration field: "
  if unsupportedName.isPrefixOf message then message.drop unsupportedName.length
  else message.takeWhile fun b => b != 0x20

/-- **A message tells its member.** -/
theorem blamed_fault {m : Member} {message : Bytes} (h : fault m = some message) :
    blamed message = m.1 := by
  obtain ⟨name, v⟩ := m
  by_cases hname : kSupportedFields.contains name = true
  · have hcases := fault_cases hname h
    simp only [kSupportedFields, List.contains_cons, List.contains_nil, Bool.or_false,
      Bool.or_eq_true, beq_iff_eq] at hname
    dsimp only
    rcases hcases with ⟨rfl, rfl⟩ | rfl | rfl
    · decide +kernel
    · rcases hname with rfl | rfl | rfl <;> decide +kernel
    · rcases hname with rfl | rfl | rfl <;> decide +kernel
  · rw [fault_of_unsupported (by simpa [unsupported] using hname)] at h
    obtain rfl := Option.some.inj h
    simp [blamed]

/-- The object without the members of a name. -/
def without (name : Bytes) (members : List Member) : List Member :=
  members.filter fun m => m.1 != name

theorem lookup_without (name : Bytes) (members : List Member) (field : Bytes) :
    (without name members).lookup field = if field = name then none else members.lookup field := by
  induction members with
  | nil => simp [without]
  | cons m members ih =>
      obtain ⟨name', v⟩ := m
      by_cases hname : name' = name
      · subst hname
        have hskip : without name' ((name', v) :: members) = without name' members :=
          List.filter_cons_of_neg (by simp)
        rw [hskip, ih]
        split
        · rfl
        · next hne => rw [List.lookup_cons, beq_eq_false_iff_ne.mpr hne]
      · have hkeep : without name ((name', v) :: members) = (name', v) :: without name members :=
          List.filter_cons_of_pos (by simpa using hname)
        rw [hkeep, List.lookup_cons, List.lookup_cons, ih]
        by_cases hfield : field = name'
        · subst hfield
          simp [hname]
        · rw [beq_eq_false_iff_ne.mpr hfield]

theorem checked_without (name : Bytes) (members : List Member) :
    checked (without name members) = without name (checked members) := by
  unfold checked
  have hfields : ∀ fields : List Bytes,
      (fields.filterMap fun field => ((without name members).lookup field).map (Prod.mk field)) =
        without name (fields.filterMap fun field => (members.lookup field).map (Prod.mk field)) := by
    intro fields
    unfold without
    rw [List.filter_filterMap]
    congr 1
    funext field
    have hlookup := lookup_without name members field
    unfold without at hlookup
    rw [hlookup]
    by_cases hfield : field = name
    · cases members.lookup field <;> simp [hfield, Option.filter]
    · cases members.lookup field <;> simp [hfield, Option.filter]
  rw [hfields]
  unfold without
  rw [List.filter_append, List.filter_comm]

theorem faults_without (name : Bytes) (members : List Member) :
    faults (without name members) = (faults members).filter fun f => f.1 != name := by
  rw [faults, checked_without, faults, without, List.filter_filterMap, List.filterMap_filter]
  congr 1
  funext m
  by_cases hname : m.1 = name
  · cases fault m <;> simp [hname, Option.filter]
  · cases fault m <;> simp [hname, Option.filter]

/-! ## Names at fault -/

theorem sublist_of_keyed {α β γ : Type} (key : α → γ) (g : α → Option β) (l : List α) :
    ((l.filterMap fun a => (g a).map (Prod.mk (key a))).map Prod.fst).Sublist (l.map key) := by
  induction l with
  | nil => exact List.Sublist.refl []
  | cons a l ih =>
      rw [List.filterMap_cons, List.map_cons]
      cases g a with
      | none => exact ih.cons _
      | some b => exact ih.cons_cons _

theorem nodup_checked {members : List Member} (hnodup : (members.map Prod.fst).Nodup) :
    ((checked members).map Prod.fst).Nodup := by
  have hfields := sublist_of_keyed id (fun name => members.lookup name) kSupportedFields
  rw [List.map_id] at hfields
  rw [checked, List.map_append, List.nodup_append]
  refine ⟨hnodup.sublist (List.filter_sublist.map _), ?_, ?_⟩
  · exact List.Nodup.sublist hfields (by decide +kernel)
  · rintro name hunsupported name' hname' rfl
    obtain ⟨m, hm, rfl⟩ := List.mem_map.mp hunsupported
    have hcontains : kSupportedFields.contains m.1 = true := by simpa using hfields.subset hname'
    have hrejected := (List.mem_filter.mp hm).2
    rw [unsupported, hcontains] at hrejected
    cases hrejected

theorem nodup_faults {members : List Member} (hnodup : (members.map Prod.fst).Nodup) :
    ((faults members).map Prod.fst).Nodup :=
  (nodup_checked hnodup).sublist (sublist_of_keyed Prod.fst fault (checked members))

/-- The checks go through all members. -/
theorem mem_checked {members : List Member} (hnodup : (members.map Prod.fst).Nodup) (m : Member) :
    m ∈ checked members ↔ m ∈ members := by
  obtain ⟨name, v⟩ := m
  have hfound : (name, v) ∈ (kSupportedFields.filterMap fun field =>
      (members.lookup field).map (Prod.mk field)) ↔
        kSupportedFields.contains name = true ∧ (name, v) ∈ members := by
    rw [List.contains_iff_mem, ← Json.lookup_eq_some_iff_of_nodup hnodup, List.mem_filterMap]
    constructor
    · rintro ⟨field, hfield, hlookup⟩
      obtain ⟨v', hv', heq⟩ := Option.map_eq_some_iff.mp hlookup
      cases heq
      exact ⟨hfield, hv'⟩
    · rintro ⟨hname, hlookup⟩
      exact ⟨name, hname, by rw [hlookup]; rfl⟩
  rw [checked, List.mem_append, hfound, List.mem_filter, unsupported]
  cases kSupportedFields.contains name <;> simp

theorem perm_checked {members : List Member} (hnodup : (members.map Prod.fst).Nodup) :
    (checked members).Perm members :=
  (List.perm_ext_iff_of_nodup (nodup_checked hnodup).of_map hnodup.of_map).mpr
    fun m => mem_checked hnodup m

theorem mem_faults {members : List Member} (hnodup : (members.map Prod.fst).Nodup)
    (f : Bytes × Bytes) :
    f ∈ faults members ↔ ∃ m ∈ members, m.1 = f.1 ∧ fault m = some f.2 := by
  rw [faults, List.mem_filterMap]
  constructor
  · rintro ⟨m, hm, hf⟩
    obtain ⟨message, hmessage, rfl⟩ := Option.map_eq_some_iff.mp hf
    exact ⟨m, (mem_checked hnodup m).mp hm, rfl, hmessage⟩
  · rintro ⟨m, hm, hname, hfault⟩
    exact ⟨m, (mem_checked hnodup m).mpr hm, by rw [hfault, hname]; rfl⟩

theorem mem_names_iff {members : List Member} (hnodup : (members.map Prod.fst).Nodup) {m : Member}
    (hm : m ∈ members) : m.1 ∈ (faults members).map Prod.fst ↔ (fault m).isSome = true := by
  rw [List.mem_map, Option.isSome_iff_exists]
  constructor
  · rintro ⟨f, hf, hname⟩
    obtain ⟨m', hm', hname', hfault⟩ := (mem_faults hnodup f).mp hf
    obtain rfl := List.inj_on_of_nodup_map hnodup hm' hm (hname'.trans hname)
    exact ⟨f.2, hfault⟩
  · rintro ⟨message, hmessage⟩
    exact ⟨(m.1, message), (mem_faults hnodup _).mpr ⟨m, hm, rfl, hmessage⟩, rfl⟩

/-! ## Repair -/

/-- Remove the member that is reported, if there is one. -/
def repairRound (members : List Member) : List Member :=
  match (parseApplicationConfig (.object members)).run with
  | .ok (.error e) => without (blamed e.message) members
  | _ => members

theorem repairRound_of_faults {members : List Member} (hnodup : (members.map Prod.fst).Nodup)
    {f : Bytes × Bytes} {rest : List (Bytes × Bytes)} (h : faults members = f :: rest) :
    repairRound members = without f.1 members ∧ faults (repairRound members) = rest := by
  have hends := parse_endsWith members
  rw [h] at hends
  obtain ⟨m, -, hname, hfault⟩ := (mem_faults hnodup f).mp (h ▸ List.mem_cons_self ..)
  have hround : repairRound members = without f.1 members := by
    have hrun : (parseApplicationConfig (.object members)).run =
      .ok (.error ⟨.invalidArgument, f.2⟩) := hends
    rw [repairRound, hrun, ← hname, ← blamed_fault hfault]
  refine ⟨hround, ?_⟩
  -- no other fault has that name
  have hnames := nodup_faults hnodup
  rw [h, List.map_cons, List.nodup_cons] at hnames
  rw [hround, faults_without, h, List.filter_cons_of_neg (by simp), List.filter_eq_self]
  intro f' hf'
  have hne : f'.1 ≠ f.1 := fun heq => hnames.1 (heq ▸ List.mem_map_of_mem hf')
  simpa using hne

theorem repairRound_of_no_faults {members : List Member} (h : faults members = []) :
    repairRound members = members := by
  have hends := parse_endsWith members
  rw [h] at hends
  obtain ⟨config, hconfig⟩ := hends
  rw [repairRound, hconfig]

theorem nodup_without {members : List Member} (hnodup : (members.map Prod.fst).Nodup)
    (name : Bytes) : ((without name members).map Prod.fst).Nodup :=
  hnodup.sublist (List.filter_sublist.map _)

/-- So many rounds remove the first so many faults, and nothing else. -/
theorem rounds {members : List Member} (hnodup : (members.map Prod.fst).Nodup) (n : ℕ) :
    faults (repairRound^[n] members) = (faults members).drop n ∧
    repairRound^[n] members =
      members.filter fun m => !(((faults members).take n).map Prod.fst).contains m.1 := by
  -- the first round removes the first fault, and the rest is the same for what it leaves
  induction n generalizing members with
  | zero => simp
  | succ n ih =>
      rw [Function.iterate_succ_apply]
      cases h : faults members with
      | nil =>
          rw [repairRound_of_no_faults h]
          have hrounds := ih hnodup
          rw [h] at hrounds
          simpa using hrounds
      | cons f rest =>
          obtain ⟨hround, hrest⟩ := repairRound_of_faults hnodup h
          obtain ⟨hfaults, hmembers⟩ := ih (hround ▸ nodup_without hnodup f.1)
          rw [hrest] at hfaults hmembers
          refine ⟨hfaults, ?_⟩
          rw [hmembers, hround]
          unfold without
          rw [List.filter_filter, List.take_succ_cons, List.map_cons]
          congr 1
          funext m
          rw [List.contains_cons, Bool.not_or, Bool.and_comm, bne]

/-- **Repair by the reports.** Each round reports the next fault, and the removal of the member it names
    takes away that fault alone. When there are no more, what is left is accepted, and is all that was
    not at fault. -/
theorem repaired {members : List Member} (hnodup : (members.map Prod.fst).Nodup) (n : ℕ) :
    (faults members).length = members.countP (fun m => (fault m).isSome) ∧
    (∀ h : n < (faults members).length,
      (parseApplicationConfig (.object (repairRound^[n] members))).run =
        .ok (.error ⟨.invalidArgument, ((faults members)[n]).2⟩)) ∧
    (∀ m ∈ members, fault m = none → m ∈ repairRound^[n] members) ∧
    ((faults members).length ≤ n →
      repairRound^[n] members = members.filter (fun m => (fault m).isNone) ∧
      Succeeds (parseApplicationConfig (.object (repairRound^[n] members)))) := by
  obtain ⟨hfaults, hmembers⟩ := rounds hnodup n
  have hends := parse_endsWith (repairRound^[n] members)
  rw [hfaults, List.head?_drop] at hends
  refine ⟨?_, ?_, ?_, ?_⟩
  · rw [faults, List.length_filterMap_eq_countP, ← (perm_checked hnodup).countP_eq]
    simp
  · intro h
    rw [List.getElem?_eq_getElem h] at hends
    exact hends
  · intro m hm hfault
    rw [hmembers, List.mem_filter]
    refine ⟨hm, ?_⟩
    -- its name is not among the names removed so far
    have hname : m.1 ∉ (faults members).map Prod.fst := by
      rw [mem_names_iff hnodup hm, hfault]
      simp
    have hfirst : m.1 ∉ ((faults members).take n).map Prod.fst := fun hmem =>
      hname (((List.take_sublist n _).map Prod.fst).subset hmem)
    simpa using hfirst
  · intro hn
    rw [List.getElem?_eq_none hn] at hends
    refine ⟨?_, hends⟩
    rw [hmembers, List.take_of_length_le hn]
    refine List.filter_congr fun m hm => ?_
    have hname := mem_names_iff hnodup hm
    rw [← List.contains_iff_mem] at hname
    cases hfault : fault m with
    | none => simpa [hfault] using hname
    | some message => simpa [hfault] using hname

def twoFaults : List Member :=
  [(ascii "colour", .null), (ascii "data_path", .string (ascii " ")),
    (ascii "log_level", .string (ascii "debug"))]

theorem repaired_twoFaults :
    repairRound^[2] twoFaults = twoFaults.filter (fun m => (fault m).isNone) ∧
    Succeeds (parseApplicationConfig (.object (repairRound^[2] twoFaults))) :=
  (repaired (by decide +kernel : (twoFaults.map Prod.fst).Nodup) 2).2.2.2 (by decide +kernel)

end BranchTalk.Core.ApplicationConfig
