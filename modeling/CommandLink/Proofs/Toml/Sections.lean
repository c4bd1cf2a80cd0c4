import CommandLink.Proofs.Toml.Tables

namespace CommandLink.Toml

/-- The fields of a table in the root. -/
def Fields.under (f : Fields) (h : List Char) : Fields :=
  match f h with
  | some (.table _ g) => g
  | _ => Fields.empty

/-- Nothing but tables. -/
def Flat (f : Fields) : Prop := ∀ n i, f n = some i → ∃ kind g, i = .table kind g

theorem under_set_self (f : Fields) (h : List Char) (kind : Kind) (g : Fields) :
    (f.set h (.table kind g)).under h = g := by
  rw [Fields.under, Fields.set_self]

theorem under_set_of_ne (f : Fields) {h n : List Char} (i : Item) (hne : n ≠ h) :
    (f.set h i).under n = f.under n := by
  rw [Fields.under, Fields.set_of_ne f i hne, Fields.under]

theorem under_of_none {f : Fields} {h : List Char} (hf : f h = none) :
    f.under h = Fields.empty := by
  rw [Fields.under, hf]

theorem under_of_table {f g : Fields} {h : List Char} {kind : Kind}
    (hf : f h = some (.table kind g)) : f.under h = g := by
  rw [Fields.under, hf]

theorem Flat.set {f : Fields} (hf : Flat f) (h : List Char) (kind : Kind) (g : Fields) :
    Flat (f.set h (.table kind g)) := by
  intro n i hi
  by_cases hn : n = h
  · subst hn
    rw [Fields.set_self] at hi
    exact ⟨kind, g, (Option.some.inj hi).symm⟩
  · rw [Fields.set_of_ne f _ hn] at hi
    exact hf n i hi

theorem openTable_eq_some {n : List Char} {f f' : Fields} (h : openTable n f = some f') :
    ∃ g, f' = f.set n (.table .opened g) ∧ f.under n = g := by
  unfold openTable at h
  split at h
  · rename_i hf
    exact ⟨Fields.empty, (Option.some.inj h).symm, under_of_none hf⟩
  · rename_i g hf
    exact ⟨g, (Option.some.inj h).symm, under_of_table hf⟩
  · cases h

theorem define_eq_some {n : List Char} {v : Value} {f f' : Fields} (h : define n v f = some f') :
    f n = none ∧ f' = f.set n (.value v) := by
  unfold define at h
  split at h
  · exact ⟨‹_›, (Option.some.inj h).symm⟩
  · cases h

/-- A header in the root opens a table and leaves all fields as they are. -/
theorem step_table {s s' : State} {h : List Char} (hs : s.step (.table ⟨[], h⟩) = some s')
    (hflat : Flat s.root) :
    s'.header = [h] ∧ Flat s'.root ∧ ∀ n, s'.root.under n = s.root.under n := by
  obtain ⟨root, hroot, rfl⟩ := Option.map_eq_some_iff.mp hs
  obtain ⟨g, rfl, hg⟩ := openTable_eq_some hroot
  refine ⟨rfl, hflat.set h _ g, fun n => ?_⟩
  by_cases hn : n = h
  · rw [hn, under_set_self, hg]
  · rw [under_set_of_ne _ _ hn]

/-- A bare key below a header adds a field to the table of the header. -/
theorem step_assign {s s' : State} {h n : List Char} {v : Value}
    (hs : s.step (.assign ⟨[], n⟩ v) = some s') (hheader : s.header = [h]) (hflat : Flat s.root) :
    s'.header = [h] ∧ Flat s'.root ∧ s.root.under h n = none ∧
      s'.root.under h = (s.root.under h).set n (.value v) ∧
      ∀ m, m ≠ h → s'.root.under m = s.root.under m := by
  obtain ⟨root, hroot, rfl⟩ := Option.map_eq_some_iff.mp hs
  obtain ⟨kind, g, rfl, hg⟩ : ∃ kind g, root = s.root.set h (.table kind g) ∧
      define n v (s.root.under h) = some g := by
    rw [hheader] at hroot
    cases hf : s.root h with
    | none =>
      simp only [within, hf] at hroot
      obtain ⟨g, hg, rfl⟩ := Option.map_eq_some_iff.mp hroot
      exact ⟨_, g, rfl, under_of_none hf ▸ hg⟩
    | some i =>
      obtain ⟨kind, fields, rfl⟩ := hflat h i hf
      simp only [within, hf, Walk.passes, if_pos] at hroot
      obtain ⟨g, hg, rfl⟩ := Option.map_eq_some_iff.mp hroot
      exact ⟨kind, g, rfl, under_of_table hf ▸ hg⟩
  obtain ⟨hnone, rfl⟩ := define_eq_some hg
  exact ⟨hheader, hflat.set h kind _, hnone, under_set_self _ _ _ _,
    fun m hm => under_set_of_ne _ _ hm⟩

theorem lookup_of_shows {f : Fields} {kind : Kind} {v : Value} (h : Shows (.table kind f) v) :
    ∃ fields, v = .table fields ∧ (∀ n, f n = none → fields.lookup n = none) ∧
      ∀ n i, f n = some i → ∃ w, fields.lookup n = some w ∧ Shows i w := by
  cases h with
  | table shown hnone hsome hshown =>
    exact ⟨_, rfl, hnone, fun n i hi => ⟨shown n, hsome n i hi, hshown n i hi⟩⟩

/-- A field of a section of a document. -/
def fieldAt? (document : Value) (heading name : List Char) : Option Value :=
  (document.table?.bind fun sections => sections.lookup heading).bind fun s =>
    s.table?.bind fun fields => fields.lookup name

/-- What a document shows of a field of a table in the root. -/
theorem shows_field {f : Fields} {kind : Kind} {document : Value}
    (h : Shows (.table kind f) document) (hflat : Flat f) (heading name : List Char) :
    (f.under heading name = none → fieldAt? document heading name = none) ∧
    ∀ v, f.under heading name = some (.value v) → fieldAt? document heading name = some v := by
  obtain ⟨sections, rfl, hnone, hsome⟩ := lookup_of_shows h
  cases hf : f heading with
  | none =>
    have hat : fieldAt? (.table sections) heading name = none := by
      rw [fieldAt?, Value.table?, Option.bind_some, hnone _ hf, Option.bind_none]
    rw [hat, under_of_none hf]
    exact ⟨fun _ => rfl, fun v hv => by cases hv⟩
  | some i =>
    obtain ⟨w, hw, hshows⟩ := hsome _ i hf
    obtain ⟨kind', g, rfl⟩ := hflat _ i hf
    obtain ⟨fields, rfl, hnone', hsome'⟩ := lookup_of_shows hshows
    have hat : fieldAt? (.table sections) heading name = fields.lookup name := by
      rw [fieldAt?, Value.table?, Option.bind_some, hw]
      rfl
    rw [hat, under_of_table hf]
    refine ⟨hnone' _, fun v hv => ?_⟩
    obtain ⟨u, hu, hshows⟩ := hsome' _ _ hv
    cases hshows
    exact hu

end CommandLink.Toml
