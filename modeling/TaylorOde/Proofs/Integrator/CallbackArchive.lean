import TaylorOde.Integrator.Callback
import TaylorOde.Proofs.Archive.Decoding
/-!
# Archived callbacks read back

A callback is archived as a tag and a payload (`toData`). The payload of an angle reducer is the
sequence of its variable names; the payload of a set is the sequence of the archived forms of its
members, each written as its tag and its payload, so a set inside a set is archived inside the
payload of its parent. Reading (`ofData`) dispatches on the tag, reads the payload back, and
rebuilds the members of a set from their own archived forms, the fuel coming from the size of the
payload.

For every callback built from angle reducers and sets of them (`Builtin`), reading its archived
form gives the callback back, with the state positions its angle reducers resolved forgotten
(`unresolved`), and archiving that again gives the same archived form, so the tags and payloads
agree at every level (`ofData_toData`). The induction is on the nesting (`Builtin.roundTrips`):
the payload of a member lies strictly inside the payload of its parent, which pays for the fuel.
Lengths are written in 64 bits, so the statement is about archives shorter than `2 ^ 64` bytes.
-/

namespace TaylorOde

namespace StepCallback

open Archive

/-- Callbacks built from angle reducers and sets of them, nested to any depth. The variables of
an angle reducer have non-empty names, as every variable does. -/
inductive Builtin : StepCallback → Prop
  | angleReducer {vars : List String} {indices : List Nat} :
      (∀ v ∈ vars, v ≠ "") → Builtin (.angleReducer vars indices)
  | set {members : List StepCallback} : (∀ m ∈ members, Builtin m) → Builtin (.set members)

/-- The callback with the state positions its angle reducers resolved forgotten. -/
def unresolved : StepCallback → StepCallback
  | .angleReducer vars _ => .angleReducer vars []
  | .set members => .set (members.map unresolved)
  | c => c

@[simp] theorem unresolved_angleReducer (vars : List String) (indices : List Nat) :
    (angleReducer vars indices).unresolved = .angleReducer vars [] := by
  rw [unresolved]

@[simp] theorem unresolved_set (members : List StepCallback) :
    (set members).unresolved = .set (members.map unresolved) := by
  rw [unresolved]

/-! ## The bytes of archived callbacks -/

/-- An archived callback as a member of a set's payload: its tag, then its payload. -/
def dataEnc (d : CallbackData) : List UInt8 := bytesEnc d.tag.toUTF8 ++ bytesEnc d.payload

theorem appends_pushData : Appends pushData dataEnc := fun out d => by
  rw [pushData, appends_pushBytes, appends_pushString, List.append_assoc, dataEnc]

theorem decodes_readData {d : CallbackData} (ht : d.tag.toUTF8.size < 2 ^ 64)
    (hp : d.payload.size < 2 ^ 64) : Decodes readData (dataEnc d) d := by
  rw [dataEnc, ← List.append_nil (bytesEnc d.payload)]
  exact (decodes_readString ht).bind ((decodes_readBytes hp).bind (Decodes.pure _))

theorem pushSeq_empty_data {α : Type} {f : ByteArray → α → ByteArray} {enc : α → List UInt8}
    (hf : Appends f enc) (xs : List α) :
    (pushSeq ByteArray.empty xs f).data.toList = seqEnc enc xs := by
  rw [pushSeq_data hf, ByteArray.data_empty, Array.toList_empty, List.nil_append]

/-- A payload that a reader decodes reads back. -/
theorem readPayload_of_decodes {β : Type} {r : Reader β} {enc : List UInt8} {v : β}
    (h : Decodes r enc v) {payload : ByteArray} (hp : payload.data.toList = enc) :
    readPayload r payload = .ok v := by
  rw [readPayload, h.run' (hp.trans (List.append_nil enc).symm)]

/-- An element of a sequence is shorter than the sequence, by its length word at least. -/
theorem length_lt_length_seqEnc {α : Type} (enc : α → List UInt8) {xs : List α} {x : α}
    (hx : x ∈ xs) : (enc x).length + 8 ≤ (seqEnc enc xs).length := by
  have : (enc x).length ≤ (xs.flatMap enc).length := length_le_length_flatMap_of_mem hx
  simp only [seqEnc, List.length_append, length_wordBytes]
  omega

theorem length_le_length_seqEnc {α : Type} (enc : α → List UInt8) (xs : List α)
    (h : ∀ x ∈ xs, enc x ≠ []) : xs.length + 8 ≤ (seqEnc enc xs).length := by
  have := length_le_length_flatMap h
  simp only [seqEnc, List.length_append, length_wordBytes]
  omega

/-- A payload written as a sequence and shorter than `2 ^ 64` bytes reads back as the sequence,
when each element reads back from its own bytes. -/
theorem readPayload_pushSeq {α : Type} {f : ByteArray → α → ByteArray} {enc : α → List UInt8}
    {r : Reader α} {xs : List α} (hf : Appends f enc) (hne : ∀ x ∈ xs, enc x ≠ [])
    (hr : ∀ x ∈ xs, (enc x).length < 2 ^ 64 → Decodes r (enc x) x)
    (hsize : (pushSeq ByteArray.empty xs f).size < 2 ^ 64) :
    readPayload (readSeq r) (pushSeq ByteArray.empty xs f) = .ok xs := by
  have hpayload := pushSeq_empty_data hf xs
  have hbound : (seqEnc enc xs).length < 2 ^ 64 := by
    rwa [← hpayload, Array.length_toList, ByteArray.size_data]
  -- the number of elements and each element are bounded by the whole
  refine readPayload_of_decodes (decodes_readSeq ?_ fun x hx => ⟨hr x hx ?_, hne x hx⟩) hpayload
  · have := length_le_length_seqEnc enc xs hne
    omega
  · have := length_lt_length_seqEnc enc hx
    omega

/-! ## Lists of callbacks -/

theorem toDataList_eq_ok {ms : List StepCallback} {ds : List CallbackData}
    (h : List.Forall₂ (fun m d => toData m = .ok d) ms ds) : toDataList ms = .ok ds := by
  induction h with
  | nil => rfl
  | cons hd _ ih => rw [toDataList, hd, ih]; rfl

/-- Reading the archived forms of the members of a set, each of which reads back. -/
theorem mapM_eq_ok {R : StepCallback → CallbackData → Prop}
    {f : CallbackData → Outcome StepCallback} {g : StepCallback → StepCallback}
    {cs : List StepCallback} {ds : List CallbackData} (h : List.Forall₂ R cs ds)
    (hf : ∀ c d, R c d → d ∈ ds → f d = .ok (g c)) : ds.mapM f = .ok (cs.map g) := by
  induction h with
  | nil => rfl
  | cons hcd _ ih =>
    rw [List.mapM_cons, hf _ _ hcd (List.mem_cons_self ..),
      ih fun c d hr hd => hf c d hr (List.mem_cons_of_mem _ hd)]
    rfl

theorem exists_forall₂_of_forall_mem {α β : Type} {P : α → β → Prop} :
    ∀ {xs : List α}, (∀ x ∈ xs, ∃ y, P x y) → ∃ ys, List.Forall₂ P xs ys
  | [], _ => ⟨[], .nil⟩
  | x :: xs, h => by
    obtain ⟨y, hy⟩ := h x (List.mem_cons_self ..)
    obtain ⟨ys, hys⟩ := exists_forall₂_of_forall_mem fun z hz => h z (List.mem_cons_of_mem x hz)
    exact ⟨y :: ys, .cons hy hys⟩

/-! ## The round trip -/

section RoundTrip

variable (tags : List String) (kindName : String)

/-- Archiving `c` gives `d`, so does archiving `c` with its resolved positions forgotten, and
reading `d` back with more fuel than its payload has bytes gives the latter. -/
def RoundTrips (c : StepCallback) (d : CallbackData) : Prop :=
  c.toData = .ok d ∧ c.unresolved.toData = .ok d ∧
    ∀ fuel, d.payload.size < fuel → d.payload.size < 2 ^ 64 →
      ofDataWith tags kindName fuel d = .ok c.unresolved

theorem roundTrips_angleReducer {vars : List String} {indices : List Nat}
    (hv : ∀ v ∈ vars, v ≠ "") :
    RoundTrips tags kindName (.angleReducer vars indices)
      ⟨angleReducerTag, pushSeq ByteArray.empty vars pushString⟩ := by
  refine ⟨rfl, by rw [unresolved_angleReducer]; rfl, fun fuel hfuel hsize => ?_⟩
  obtain ⟨fuel, rfl⟩ : ∃ f, fuel = f + 1 := ⟨fuel - 1, by omega⟩
  have hread : readPayload (readSeq readString) (pushSeq ByteArray.empty vars pushString) =
      .ok vars :=
    readPayload_pushSeq appends_pushString
      (fun _ _ => List.ne_nil_of_length_pos (by simp only [length_bytesEnc]; omega))
      (fun _ _ hlen => decodes_readString (by simp only [length_bytesEnc] at hlen; omega)) hsize
  have hnames : (vars.any fun s => s.isEmpty) = false := by
    rw [List.any_eq_false]
    intro v hmem
    simpa [String.isEmpty, String.utf8ByteSize_eq_zero_iff] using hv v hmem
  rw [ofDataWith]
  simp only [show (angleReducerTag == setTag) = false by decide, show
    (angleReducerTag == angleReducerTag) = true by decide, Bool.false_eq_true, ↓reduceIte, hread,
    bind, Except.bind, hnames, unresolved_angleReducer]
  rfl

theorem roundTrips_set {members : List StepCallback} {ds : List CallbackData}
    (h : List.Forall₂ (RoundTrips tags kindName) members ds) :
    RoundTrips tags kindName (.set members) ⟨setTag, pushSeq ByteArray.empty ds pushData⟩ := by
  have hdata : toDataList members = .ok ds := toDataList_eq_ok (h.imp fun _ _ hm => hm.1)
  have hdata' : toDataList (members.map unresolved) = .ok ds :=
    toDataList_eq_ok (List.forall₂_map_left_iff.2 (h.imp fun _ _ hm => hm.2.1))
  refine ⟨by rw [toData, hdata]; rfl, by rw [unresolved_set, toData, hdata']; rfl,
    fun fuel hfuel hsize => ?_⟩
  obtain ⟨fuel, rfl⟩ : ∃ f, fuel = f + 1 := ⟨fuel - 1, by omega⟩
  have hbound : (seqEnc dataEnc ds).length < fuel + 1 ∧ (seqEnc dataEnc ds).length < 2 ^ 64 := by
    rw [← pushSeq_empty_data appends_pushData ds, Array.length_toList, ByteArray.size_data]
    exact ⟨hfuel, hsize⟩
  -- a member's tag and payload lie strictly inside the payload of the set
  have hmember : ∀ d ∈ ds, d.tag.toUTF8.size + d.payload.size + 24 ≤ (seqEnc dataEnc ds).length :=
    fun d hd => by
      have := length_lt_length_seqEnc dataEnc hd
      simp only [dataEnc, List.length_append, length_bytesEnc] at this
      omega
  have hread : readPayload (readSeq readData) (pushSeq ByteArray.empty ds pushData) = .ok ds :=
    readPayload_pushSeq appends_pushData
      (fun _ _ => List.ne_nil_of_length_pos
        (by simp only [dataEnc, List.length_append, length_bytesEnc]; omega))
      (fun _ _ hlen => by
        simp only [dataEnc, List.length_append, length_bytesEnc] at hlen
        exact decodes_readData (by omega) (by omega)) hsize
  -- every member reads back with the fuel left
  have hmembers : ds.mapM (ofDataWith tags kindName fuel) = .ok (members.map unresolved) :=
    mapM_eq_ok h fun m d hm hd => hm.2.2 fuel (by have := hmember d hd; omega)
      (by have := hmember d hd; omega)
  rw [ofDataWith]
  simp only [show (setTag == setTag) = true by decide, ↓reduceIte, hread, bind, Except.bind,
    hmembers, unresolved_set]
  rfl

/-- Every built-in callback has an archived form that reads back, by induction on the nesting. -/
theorem Builtin.roundTrips {c : StepCallback} (hc : c.Builtin) :
    ∃ d, RoundTrips tags kindName c d := by
  induction hc with
  | angleReducer hv => exact ⟨_, roundTrips_angleReducer tags kindName hv⟩
  | set _ ih =>
    obtain ⟨ds, hds⟩ := exists_forall₂_of_forall_mem ih
    exact ⟨_, roundTrips_set tags kindName hds⟩

end RoundTrip

/-- Archiving a callback built from angle reducers and nested sets succeeds, and reading the
archived form back gives the callback with its resolved state positions forgotten, whose archived
form is the same: the same tags and payloads at every level. -/
theorem ofData_toData (tags : List String) (kindName : String) {c : StepCallback}
    (hc : c.Builtin) :
    ∃ d, c.toData = .ok d ∧ (d.payload.size < 2 ^ 64 →
      ofData tags kindName d = .ok c.unresolved ∧ c.unresolved.toData = .ok d) := by
  obtain ⟨d, hdata, hdata', hread⟩ := hc.roundTrips tags kindName
  exact ⟨d, hdata, fun hsize => ⟨hread _ (Nat.lt_succ_self _) hsize, hdata'⟩⟩

/-- A set holding an angle reducer and a set holding another, with resolved positions. -/
def nestedSample : StepCallback :=
  .set [.angleReducer ["x"] [2], .set [.angleReducer ["theta", "phi"] [0, 1]]]

theorem nestedSample_reads_back :
    nestedSample.Builtin ∧ ∃ d, nestedSample.toData = .ok d ∧ d.payload.size < 2 ^ 64 ∧
      ofData [] "binary64" d =
        .ok (.set [.angleReducer ["x"] [], .set [.angleReducer ["theta", "phi"] []]]) ∧
      nestedSample.unresolved.toData = .ok d := by
  have hc : nestedSample.Builtin := by
    refine .set fun m hm => ?_
    simp only [List.mem_cons, List.mem_nil_iff, or_false] at hm
    rcases hm with rfl | rfl
    · exact .angleReducer (by simp)
    · refine .set fun m hm => ?_
      simp only [List.mem_cons, List.mem_nil_iff, or_false] at hm
      subst hm
      exact .angleReducer (by simp)
  obtain ⟨d, hd, hround⟩ := ofData_toData [] "binary64" hc
  have hsize : d.payload.size = 163 := by
    have h : (nestedSample.toData.map fun d => d.payload.size) = .ok 163 := rfl
    rw [hd] at h
    exact Except.ok.inj h
  obtain ⟨hread, hdata⟩ := hround (by omega)
  exact ⟨hc, d, hd, by omega, by rw [hread]; simp [nestedSample], hdata⟩

end StepCallback

end TaylorOde
