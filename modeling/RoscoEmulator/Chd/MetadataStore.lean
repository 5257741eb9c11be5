import RoscoEmulator.Chd.MetadataList

/-!
# Chains behind the header

The metadata of an open CHD are a chain of records that starts at the link in the header. The
records keep out of each other's way and out of the header, so that a link can be changed, data
written over and a record appended without harm to the others. For each operation there is one lemma
that says which records it leaves. -/

namespace RoscoEmulator.Chd

open List BigEndian ByteFile

/-- The length of the header. -/
def headerSize (version : ℕ) : ℕ := if version = 3 then 120 else if version = 4 then 108 else 124

namespace ChdFile

/-- The places of the header fields, as `parse_v3_header`, `parse_v4_header` and `parse_v5_header`
set them: those of the link to the metadata, of the hash and of the raw hash. -/
def HeaderFields (c : ChdFile) : Prop :=
  c.version = 3 ∧ c.metaoffsetOffset = 36 ∧ c.sha1Offset = 80 ∧ c.rawsha1Offset = 0 ∨
  c.version = 4 ∧ c.metaoffsetOffset = 36 ∧ c.sha1Offset = 48 ∧ c.rawsha1Offset = 88 ∨
  c.version = 5 ∧ c.metaoffsetOffset = 48 ∧ c.sha1Offset = 84 ∧ c.rawsha1Offset = 64

instance (c : ChdFile) : Decidable c.HeaderFields := inferInstanceAs (Decidable (_ ∨ _ ∨ _))

variable {c : ChdFile}

theorem HeaderFields.inside (h : c.HeaderFields) :
    c.metaoffsetOffset + 8 ≤ headerSize c.version ∧ c.sha1Offset + 20 ≤ headerSize c.version ∧
      c.rawsha1Offset + 20 ≤ headerSize c.version := by
  obtain ⟨hv, hm, hs, hr⟩ | ⟨hv, hm, hs, hr⟩ | ⟨hv, hm, hs, hr⟩ := h <;>
    rw [hv, hm, hs, hr] <;> decide

/-- These records have room of their own behind the header. -/
structure Places (c : ChdFile) (rs : List (ℕ × Entry)) : Prop where
  faithful : c.file.Faithful
  fields : c.HeaderFields
  size : headerSize c.version ≤ c.file.data.length
  disjoint : rs.Pairwise fun r s ↦ Disjoint (recordExtent r) (recordExtent s)
  behind : ∀ r ∈ rs, headerSize c.version ≤ r.1

/-- The metadata of an open CHD are in these records. -/
structure Layout (c : ChdFile) (rs : List (ℕ × Entry)) : Prop extends c.Places rs where
  chain : Segment c.file.data c.metaoffset rs 0

/-- The metadata of an open CHD are a list. -/
def Represents (c : ChdFile) (l : List Entry) : Prop := ∃ rs, c.Layout rs ∧ rs.map Prod.snd = l

namespace Places

variable {c : ChdFile} {rs : List (ℕ × Entry)}

theorem put (h : c.Places rs) (start : ℕ) (bytes : List Byte) :
    (c.onFile fun file ↦ file.put start bytes).Places rs where
  faithful := ⟨h.faithful.canRead, h.faithful.canWrite⟩
  fields := h.fields
  size := h.size.trans (le_length_writeAt _)
  disjoint := h.disjoint
  behind := h.behind

theorem replace {before after : List (ℕ × Entry)} {r s : ℕ × Entry}
    (h : c.Places (before ++ r :: after))
    (hfst : s.1 = r.1) (hlen : s.2.data.length ≤ r.2.data.length) :
      c.Places (before ++ s :: after) where
  faithful := h.faithful
  fields := h.fields
  size := h.size
  disjoint := by
    have hsub : recordExtent s ⊆ recordExtent r := extent_subset hfst.ge (by omega)
    obtain ⟨hbefore, hafter, hcross⟩ := List.pairwise_append.mp h.disjoint
    obtain ⟨hr, hafter⟩ := List.pairwise_cons.mp hafter
    refine List.pairwise_append.mpr ⟨hbefore, List.pairwise_cons.mpr ⟨fun t ht ↦ ?_, hafter⟩, ?_⟩
    · exact (hr t ht).mono_left hsub
    · intro t ht u hu
      rcases List.mem_cons.mp hu with rfl | hu
      · exact (hcross t ht r mem_cons_self).mono_right hsub
      · exact hcross t ht u (mem_cons_of_mem _ hu)
  behind := by
    intro t ht
    rcases List.mem_append.mp ht with ht | ht
    · exact h.behind t (mem_append_left _ ht)
    rcases List.mem_cons.mp ht with rfl | ht
    · exact hfst ▸ h.behind r (mem_append_right _ mem_cons_self)
    · exact h.behind t (mem_append_right _ (mem_cons_of_mem _ ht))

theorem sublist {rs' : List (ℕ × Entry)} (h : c.Places rs) (hsub : rs'.Sublist rs) :
    c.Places rs' where
  faithful := h.faithful
  fields := h.fields
  size := h.size
  disjoint := h.disjoint.sublist hsub
  behind := fun r hr ↦ h.behind r (hsub.subset hr)

theorem snoc (h : c.Places rs) (hinside : ∀ r ∈ rs, r.1 + 16 + r.2.data.length ≤ c.file.data.length)
    (e : Entry) : c.Places (rs ++ [(c.file.data.length, e)]) where
  faithful := h.faithful
  fields := h.fields
  size := h.size
  disjoint := by
    refine List.pairwise_append.mpr ⟨h.disjoint, pairwise_singleton _ _, fun r hr s hs ↦ ?_⟩
    obtain rfl := List.mem_singleton.mp hs
    exact disjoint_extent_of_le (.inl (by have := hinside r hr; omega))
  behind := by
    intro r hr
    rcases List.mem_append.mp hr with hr | hr
    · exact h.behind r hr
    · obtain rfl := List.mem_singleton.mp hr
      exact h.size

end Places

/-! ## Links -/

/-- What `metadata_set_previous_next` leaves. -/
def relink (c : ChdFile) (prev next : ℕ) : ChdFile :=
  if prev = 0 then
    { c with file := c.file.put c.metaoffsetOffset (toBytes 8 next), metaoffset := next }
  else c.onFile fun file ↦ file.put (prev + 8) (toBytes 8 next)

theorem relink_zero (c : ChdFile) (next : ℕ) : c.relink 0 next =
    { c with file := c.file.put c.metaoffsetOffset (toBytes 8 next), metaoffset := next } := rfl

theorem relink_of_pos {prev next : ℕ} (h : 0 < prev) :
    c.relink prev next = c.onFile fun file ↦ file.put (prev + 8) (toBytes 8 next) :=
  if_neg (Nat.pos_iff_ne_zero.mp h)

/-- A chain gets another end, behind the records that it keeps. -/
theorem Places.relink {before after : List (ℕ × Entry)} {mid next : ℕ}
    (h : c.Places (before ++ after)) (hbefore : Segment c.file.data c.metaoffset before mid)
    (hafter : Segment c.file.data next after 0)
    (hnext : next < 2 ^ 64) : (c.relink (lastOffset 0 before) next).Layout (before ++ after) := by
  have hlen : (toBytes 8 next).length = 8 := length_toBytes _ _
  obtain ⟨-, -, hcross⟩ := List.pairwise_append.mp h.disjoint
  rcases eq_nil_or_concat' before with rfl | ⟨before, ⟨offset, e⟩, rfl⟩
  · rw [show lastOffset 0 ([] : List (ℕ × Entry)) = 0 from rfl, relink_zero]
    have hplaces := h.put c.metaoffsetOffset (toBytes 8 next)
    refine ⟨⟨hplaces.faithful, h.fields, hplaces.size, h.disjoint, h.behind⟩, ?_⟩
    refine hafter.writeAt_of_disjoint fun r hr ↦ disjoint_extent_of_le (.inr ?_)
    have hbehind : headerSize c.version ≤ r.1 := h.behind r hr
    have hfield := h.fields.inside.1
    omega
  · have hlast : lastOffset 0 (before ++ [(offset, e)]) = offset := by
      rw [lastOffset, List.getLast?_append, List.getLast?_singleton]
      rfl
    have hpos : 0 < offset := (hbefore.inside (offset, e) (by simp)).1
    have hsetLast := hbefore.setLast (p := 0) hnext (List.pairwise_append.mp h.disjoint).1
    rw [hlast] at hsetLast ⊢
    rw [relink_of_pos hpos]
    refine ⟨h.put (offset + 8) (toBytes 8 next), hsetLast.append ?_⟩
    refine hafter.writeAt_of_disjoint fun r hr ↦ ?_
    have hsub : extent (offset + 8) (toBytes 8 next).length ⊆ recordExtent (offset, e) :=
      extent_subset (Nat.le_add_right _ _) (by omega)
    exact (hcross (offset, e) (by simp) r hr).symm.mono_right hsub

namespace Layout

variable {c : ChdFile} {rs : List (ℕ × Entry)}

theorem inside (h : c.Layout rs) : ∀ r ∈ rs, r.1 + 16 + r.2.data.length ≤ c.file.data.length :=
  fun r hr ↦ (h.chain.inside r hr).2

/-- There are no more records than bytes. -/
theorem length_lt_fuel (h : c.Layout rs) : rs.length < c.metadataFuel := by
  have hne : ∀ r s : ℕ × Entry, Disjoint (recordExtent r) (recordExtent s) → r.1 ≠ s.1 := by
    intro r s hdisj heq
    have hr : r.1 ∈ recordExtent r := ⟨Nat.le_refl _, by omega⟩
    have hs : r.1 ∈ recordExtent s := ⟨heq.ge, by omega⟩
    exact Set.disjoint_left.mp hdisj hr hs
  have hnodup : (rs.map Prod.fst).Nodup := List.pairwise_map.mpr (h.disjoint.imp (hne _ _))
  have hsub : rs.map Prod.fst ⊆ range c.file.data.length := by
    intro offset hoffset
    obtain ⟨r, hr, rfl⟩ := List.mem_map.mp hoffset
    have hinside := h.inside r hr
    exact List.mem_range.mpr (by omega)
  have hlen := (subperm_of_subset hnodup hsub).length_le
  rw [length_map, length_range] at hlen
  exact Nat.lt_succ_of_le hlen

/-- A write into the header leaves the records alone. -/
theorem putHeader (h : c.Layout rs) {start : ℕ} {bytes : List Byte}
    (hinside : start + bytes.length ≤ headerSize c.version) :
    (c.onFile fun file ↦ file.put start bytes).Layout rs where
  toPlaces := h.toPlaces.put start bytes
  chain := h.chain.writeAt_of_disjoint fun r hr ↦ disjoint_extent_of_le (.inr (by
    have hbehind := h.behind r hr
    omega))

end Layout

end ChdFile

/-! ## What an operation leaves -/

/-- The place of a link. -/
def linkOffset (c : ChdFile) (prev : ℕ) : ℕ := if prev = 0 then c.metaoffsetOffset else prev + 8

variable {c c' : ChdFile}

theorem metadataSetPreviousNext_eq_ok {prev next : ℕ} :
    metadataSetPreviousNext prev next c = .ok () c' ↔
      c.file.canWrite (linkOffset c prev) 8 = true ∧ c' = c.relink prev next := by
  have hlen : (toBytes 8 next).length = 8 := length_toBytes _ _
  rw [metadataSetPreviousNext, linkOffset, ChdFile.relink]
  split_ifs
  · rw [get_bind]
    have hset : ∀ f : Unit → ChdM Unit, (set { c with metaoffset := next } >>= f) c =
      f () { c with metaoffset := next } := fun _ ↦ rfl
    rw [hset, fileWrite_eq_ok, hlen]
    rfl
  · rw [fileWrite_eq_ok, hlen]

/-- The CHD with a record behind everything that it had, before the link to it is set. -/
def ChdFile.withRecord (c : ChdFile) (e : Entry) : ChdFile :=
  c.onFile fun file ↦
    (file.put file.data.length (recordHeader e 0)).put (file.data.length + 16) e.data

theorem appendMetadata_eq_ok {prev : ℕ} {tag : Tag} {data : List Byte} {flags : Byte} :
    appendMetadata prev tag data flags c = .ok () c' ↔
      c.file.canWrite c.file.data.length 16 = true ∧
        c.file.canWrite (c.file.data.length + 16) data.length = true ∧
        c.file.canWrite (linkOffset c prev) 8 = true ∧
        c' = (c.withRecord ⟨tag, flags, data⟩).relink prev c.file.data.length := by
  have hheader : (recordHeader ⟨tag, flags, data⟩ 0).length = 16 := length_recordHeader _ _
  have hlen : (c.file.data.writeAt c.file.data.length
      (recordHeader ⟨tag, flags, data⟩ 0)).length = c.file.data.length + 16 := by
    rw [length_writeAt _ (ne_nil_of_length_pos (by omega)), hheader]
    omega
  have hrecord : c.withRecord ⟨tag, flags, data⟩ = c.onFile fun file ↦
      (file.put c.file.data.length (recordHeader ⟨tag, flags, data⟩ 0)).put
        (c.file.data.writeAt c.file.data.length
        (recordHeader ⟨tag, flags, data⟩ 0)).length data := by
    rw [hlen]
    rfl
  rw [appendMetadata,
    show metadataHeader tag flags data.length = recordHeader ⟨tag, flags, data⟩ 0 from
    rfl, hrecord]
  constructor
  · intro h
    obtain ⟨_, c₁, hfst, h⟩ := bind_eq_ok.mp h
    obtain ⟨hcan, rfl, rfl⟩ := fileAppend_zero_eq_ok.mp hfst
    obtain ⟨_, c₂, hsnd, h⟩ := bind_eq_ok.mp h
    obtain ⟨hcan', rfl, rfl⟩ := fileAppend_zero_eq_ok.mp hsnd
    obtain ⟨hlink, rfl⟩ := metadataSetPreviousNext_eq_ok.mp h
    refine ⟨hheader ▸ hcan, ?_, hlink, ?_⟩
    · rw [← hlen]
      exact hcan'
    · rfl
  · rintro ⟨hcan, hcan', hlink, rfl⟩
    refine bind_eq_ok.mpr ⟨_, _, fileAppend_zero_eq_ok.mpr ⟨hheader.symm ▸ hcan, rfl, rfl⟩, ?_⟩
    refine bind_eq_ok.mpr ⟨_, _, fileAppend_zero_eq_ok.mpr ⟨?_, rfl, rfl⟩, ?_⟩
    · show c.file.canWrite (c.file.data.writeAt _ _).length data.length = true
      rw [hlen]
      exact hcan'
    · exact metadataSetPreviousNext_eq_ok.mpr ⟨hlink, rfl⟩

theorem overwriteMetadata_eq_ok {m : MetadataEntry} {data : List Byte}
    (h : overwriteMetadata m data c = .ok () c') :
    c' = if data.length = m.length then c.onFile fun file ↦ file.put (m.offset + 16) data
      else c.onFile fun file ↦
        (file.put (m.offset + 16) data).put (m.offset + 5) (toBytes 3 data.length) := by
  obtain ⟨_, c₁, hwrite, h⟩ := bind_eq_ok.mp h
  obtain ⟨-, rfl⟩ := fileWrite_eq_ok.mp hwrite
  split_ifs at h ⊢
  · exact (pure_eq_ok.mp h).2.symm
  · exact (fileWrite_eq_ok.mp h).2

namespace ChdFile.Layout

variable {c c' : ChdFile} {before after : List (ℕ × Entry)} {r : ℕ × Entry}

theorem unlink (h : c.Layout (before ++ r :: after)) :
    (c.relink (lastOffset 0 before) (headOffset after)).Layout (before ++ after) := by
  obtain ⟨mid, hbefore, htail⟩ := h.chain.split
  obtain ⟨offset, e⟩ := r
  cases htail with
  | cons stored hafter =>
    obtain rfl := hafter.first_eq
    refine (h.toPlaces.sublist ?_).relink hbefore hafter stored.next_lt
    exact (List.Sublist.refl before).append (sublist_cons_self _ _)

/-- Data that fit are written over. -/
theorem overwrite (h : c.Layout (before ++ r :: after)) {data : List Byte} (hpos : 0 < data.length)
    (hfit : data.length ≤ r.2.data.length) {m : MetadataEntry} (hoffset : m.offset = r.1)
    (hlength : m.length = r.2.data.length) (hok : overwriteMetadata m data c = .ok () c') :
    c'.Layout (before ++ (r.1, { r.2 with data := data }) :: after) := by
  obtain ⟨offset, e⟩ := r
  have hplaces := h.toPlaces.replace (s := (offset, { e with data := data })) rfl hfit
  obtain ⟨hbefore, htail, hcross⟩ := List.pairwise_append.mp h.disjoint
  obtain ⟨hr, -⟩ := List.pairwise_cons.mp htail
  have hlen : (toBytes 3 data.length).length = 3 := length_toBytes _ _
  have hdata : extent (offset + 16) data.length ⊆ recordExtent (offset, e) :=
    extent_subset (Nat.le_add_right _ _) (by
      omega)
  have hlength' : extent (offset + 5) (toBytes 3 data.length).length ⊆ recordExtent (offset, e) :=
    extent_subset (Nat.le_add_right _ _) (by omega)
  obtain ⟨mid, hchain, htail'⟩ := h.chain.split
  -- the other records are out of the way of both writes
  have hbefore' : ∀ s ∈ before, Disjoint (recordExtent s) (recordExtent (offset, e)) := fun s hs ↦
    hcross s hs _ mem_cons_self
  have hafter' : ∀ s ∈ after, Disjoint (recordExtent s) (recordExtent (offset, e)) := fun s hs ↦
    (hr s hs).symm
  rw [overwriteMetadata_eq_ok hok, hoffset, hlength]
  cases htail' with
  | cons stored hafter =>
    split_ifs with heq
    · refine ⟨hplaces.put _ _, Segment.append ?_ (.cons (stored.setData_of_length_eq heq) ?_)⟩
      · exact hchain.writeAt_of_disjoint fun s hs ↦ (hbefore' s hs).mono_right hdata
      · exact hafter.writeAt_of_disjoint fun s hs ↦ (hafter' s hs).mono_right hdata
    · refine ⟨(hplaces.put _ _).put _ _, Segment.append ?_ (.cons (stored.setData hpos hfit) ?_)⟩
      · refine Segment.writeAt_of_disjoint ?_ fun s hs ↦ (hbefore' s hs).mono_right hlength'
        exact hchain.writeAt_of_disjoint fun s hs ↦ (hbefore' s hs).mono_right hdata
      · refine Segment.writeAt_of_disjoint ?_ fun s hs ↦ (hafter' s hs).mono_right hlength'
        exact hafter.writeAt_of_disjoint fun s hs ↦ (hafter' s hs).mono_right hdata

end ChdFile.Layout

theorem ChdFile.Places.append {before : List (ℕ × Entry)} {mid : ℕ} {e : Entry}
    (h : c.Places before) (hbefore : Segment c.file.data c.metaoffset before mid)
    (hpos : 0 < e.data.length) (hlt : e.data.length < 2 ^ 24) (hlen : c.file.data.length < 2 ^ 64) :
    ((c.withRecord e).relink (lastOffset 0 before) c.file.data.length).Layout
      (before ++ [(c.file.data.length, e)]) := by
  have hinside : ∀ r ∈ before, r.1 + 16 + r.2.data.length ≤ c.file.data.length := fun r hr ↦
    (hbefore.inside r hr).2
  have hfile : 0 < c.file.data.length := by
    have hfield := h.fields.inside.1
    have hsize := h.size
    omega
  have hdisj : ∀ r ∈ before, ∀ i n, Disjoint (recordExtent r) (extent (c.file.data.length + i) n) :=
    fun r hr i n ↦ disjoint_extent_of_le (.inl (by have := hinside r hr; omega))
  have hplaces : (c.withRecord e).Places (before ++ [(c.file.data.length, e)]) :=
    ((h.snoc hinside e).put _ _).put _ _
  have hchain : Segment (c.withRecord e).file.data c.metaoffset before mid :=
    (hbefore.writeAt_of_disjoint fun r hr ↦ hdisj r hr 0 _).writeAt_of_disjoint fun r hr ↦
      hdisj r hr 16 _
  exact hplaces.relink hchain (.cons (stored_append hfile hpos hlt) (.nil 0)) hlen

end RoscoEmulator.Chd
