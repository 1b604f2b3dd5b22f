import Mathlib.Data.List.Sort
import Mathlib.Order.Bounds.Defs
import NaiveStreaming.FormatEnumeration

/-!
# Starting the transmitting application

`StreamTransmitApp::initialize` makes the encoder, opens the first of the capture devices that
`/dev` lists, takes the last of its formats and makes the sender; `main` gives up when it returns
`false`, and otherwise starts streaming.  Two of the failures are returned as `-1`, which is `true`
as a `bool`: then `main` goes on without a sender.
-/

namespace NaiveStreaming
open Filter

/-- A file name, as bytes; names are compared as `std::string` does. -/
@[ext] structure FileName where
  bytes : List UInt8
  deriving DecidableEq, Repr

instance : LinearOrder FileName :=
  LinearOrder.lift' (fun name => name.bytes.map UInt8.toNat) fun _ _ h =>
    FileName.ext (List.map_injective_iff.mpr (fun _ _ => UInt8.toNat_inj.mp) h)

structure DirectoryEntry where
  filename : FileName
  isCharacterFile : Bool
  deriving DecidableEq, Repr

/-- A character file with a name of six bytes, of which `video` are the first. -/
def DirectoryEntry.IsVideo (entry : DirectoryEntry) : Prop :=
  entry.isCharacterFile = true ∧ entry.filename.bytes.length = 6 ∧
    [118, 105, 100, 101, 111] <+: entry.filename.bytes

instance : DecidablePred DirectoryEntry.IsVideo := fun _ => inferInstanceAs (Decidable (_ ∧ _))

def enumerateVideo4LinuxDevices (entries : List DirectoryEntry) : List FileName :=
  ((entries.filter (·.IsVideo)).map DirectoryEntry.filename).insertionSort (· ≤ ·)

/-- The names of the devices that the directory lists. -/
def videoDevices (entries : List DirectoryEntry) : Set FileName :=
  {name | ∃ entry ∈ entries, entry.IsVideo ∧ entry.filename = name}

theorem mem_enumerateVideo4LinuxDevices {entries : List DirectoryEntry} {name : FileName} :
    name ∈ enumerateVideo4LinuxDevices entries ↔ name ∈ videoDevices entries := by
  simp only [enumerateVideo4LinuxDevices, List.mem_insertionSort, List.mem_map, List.mem_filter,
    decide_eq_true_eq, videoDevices, Set.mem_ofPred_eq, and_assoc]

/-- **The device that is opened** has the least name, in whatever order the directory lists
them. -/
theorem head?_enumerateVideo4LinuxDevices (entries : List DirectoryEntry) (name : FileName) :
    (enumerateVideo4LinuxDevices entries).head? = some name ↔
      IsLeast (videoDevices entries) name := by
  have hsorted : (enumerateVideo4LinuxDevices entries).Pairwise (· ≤ ·) :=
    List.pairwise_insertionSort ..
  have hmem : ∀ other, other ∈ enumerateVideo4LinuxDevices entries ↔
      other ∈ videoDevices entries := fun _ => mem_enumerateVideo4LinuxDevices
  have hleast : ∀ first rest, enumerateVideo4LinuxDevices entries = first :: rest →
      IsLeast (videoDevices entries) first := by
    intro first rest heq
    rw [heq] at hsorted
    refine ⟨(hmem first).mp (by simp [heq]), ?_⟩
    intro other hother
    have hin := (hmem other).mpr hother
    rw [heq] at hin
    rcases List.mem_cons.mp hin with rfl | hrest
    · exact le_refl _
    · exact List.rel_of_pairwise_cons hsorted hrest
  constructor
  · intro h
    obtain ⟨rest, heq⟩ := List.head?_eq_some_iff.mp h
    exact hleast name rest heq
  · intro h
    have hin := (hmem name).mpr h.1
    cases heq : enumerateVideo4LinuxDevices entries with
    | nil => simp [heq] at hin
    | cons first rest => exact congrArg some ((hleast first rest heq).unique h)

/-- What the calls of `initialize` come to. -/
structure Environment where
  /-- `make_encoder` -/
  encoder : Bool
  /-- The entries of `/dev`. -/
  entries : List DirectoryEntry
  /-- `open`, in `make_video_capture`. -/
  opens : FileName → Bool
  device : FileName → V4L2Device
  /-- `make_udp_transmit` -/
  udpTransmit : Bool

/-- What `initialize` leaves of the members, and the format that `select_format` asked for. -/
structure StartedApp where
  encoder : Bool := false
  capture : Option FileName := none
  selected : Option Video4LinuxVideoFormat := none
  udpTransmit : Bool := false
  deriving DecidableEq, Repr

/-- `StreamTransmitApp::initialize`; nothing when the formats have not all been enumerated after
`fuel` turns.  The result of `select_format` is not looked at. -/
def initializeApp (fuel : ℕ) (env : Environment) : Option (Bool × StartedApp) :=
  if ¬ env.encoder then some (false, {})
  else
    match enumerateVideo4LinuxDevices env.entries with
    | [] => some (false, { encoder := true })
    | dev :: _ =>
      -- `return -1`
      if ¬ env.opens dev then some (true, { encoder := true })
      else
        match enumerateFormats fuel (env.device dev) with
        | none => none
        | some formats =>
          match formats.getLast? with
          -- `return -1`
          | none => some (true, { encoder := true, capture := some dev })
          | some format =>
            some (env.udpTransmit,
              { encoder := true
                capture := some dev
                selected := some format
                udpTransmit := env.udpTransmit })

/-- How far `main` gets. -/
inductive Startup
  /-- `initialize` has returned `false`. -/
  | exited
  /-- `async_initialize` is called through the null pointer `m_udp_transmit`. -/
  | nullTransmit
  /-- `start` is called through the null pointer `m_capture`. -/
  | nullCapture
  | streaming (dev : FileName) (selected : Option Video4LinuxVideoFormat)
  deriving DecidableEq, Repr

/-- `main`, up to the `start` of the capture. -/
def startup (fuel : ℕ) (env : Environment) : Option Startup :=
  (initializeApp fuel env).map fun (ok, app) =>
    if ¬ ok then .exited
    else if ¬ app.udpTransmit then .nullTransmit
    else
      match app.capture with
      | none => .nullCapture
      | some dev => .streaming dev app.selected

def Environment.FirstDevice (env : Environment) (dev : FileName) : Prop :=
  IsLeast (videoDevices env.entries) dev

/-! ## How far it gets -/

section
variable {env : Environment}

theorem startup_noEncoder (h : env.encoder = false) (fuel : ℕ) :
    startup fuel env = some .exited := by
  simp [startup, initializeApp, h]

theorem startup_noDevice (h : ∀ dev, ¬ env.FirstDevice dev) (fuel : ℕ) :
    startup fuel env = some .exited := by
  have hnone : enumerateVideo4LinuxDevices env.entries = [] := by
    cases heq : enumerateVideo4LinuxDevices env.entries with
    | nil => rfl
    | cons dev rest =>
        exact absurd ((head?_enumerateVideo4LinuxDevices _ dev).mp (by simp [heq])) (h dev)
  by_cases henc : env.encoder = true <;> simp [startup, initializeApp, hnone, henc]

variable {dev : FileName} (henc : env.encoder = true) (hdev : env.FirstDevice dev)
include henc hdev

theorem startup_notOpened (h : env.opens dev = false) (fuel : ℕ) :
    startup fuel env = some .nullTransmit := by
  obtain ⟨rest, heq⟩ := List.head?_eq_some_iff.mp ((head?_enumerateVideo4LinuxDevices ..).mpr hdev)
  simp [startup, initializeApp, henc, heq, h]

/-- **The enumeration never ends** when a discrete size has other intervals. -/
theorem startup_hangs (h : env.opens dev = true) {pixelformat : UInt32}
    (hmem : pixelformat ∈ (env.device dev).formats)
    (hbad : ¬ (env.device dev).DiscreteIntervals pixelformat) (fuel : ℕ) :
    startup fuel env = none := by
  obtain ⟨rest, heq⟩ := List.head?_eq_some_iff.mp ((head?_enumerateVideo4LinuxDevices ..).mpr hdev)
  simp [startup, initializeApp, henc, heq, h, formats_never_end hmem hbad]

/-- **The enumeration ends** otherwise, and the last format is selected. -/
theorem startup_returns (h : env.opens dev = true)
    (hall : ∀ pixelformat ∈ (env.device dev).formats,
      (env.device dev).DiscreteIntervals pixelformat) : ∀ᶠ fuel in atTop,
    startup fuel env = some
      (match (env.device dev).formats.getLast? with
      | none => .nullTransmit
      | some pixelformat =>
        if env.udpTransmit then .streaming dev (some (formatSpec pixelformat)) else .exited) := by
  obtain ⟨rest, heq⟩ := List.head?_eq_some_iff.mp ((head?_enumerateVideo4LinuxDevices ..).mpr hdev)
  filter_upwards [formats_end hall] with fuel hformats
  simp only [startup, initializeApp, henc, heq, h, hformats, List.getLast?_map]
  cases (env.device dev).formats.getLast? with
  | none => simp
  | some pixelformat => cases env.udpTransmit <;> simp

end

/-- How far `main` gets in an environment; nothing when it never gets beyond the enumeration of the
formats. -/
inductive Outcome (env : Environment) : Option Startup → Prop
  | noEncoder (henc : env.encoder = false) : Outcome env (some .exited)
  | noDevice (henc : env.encoder = true) (hdev : ∀ dev, ¬ env.FirstDevice dev) :
    Outcome env (some .exited)
  | notOpened {dev : FileName} (henc : env.encoder = true) (hdev : env.FirstDevice dev)
    (hopen : env.opens dev = false) : Outcome env (some .nullTransmit)
  | noFormats {dev : FileName} (henc : env.encoder = true) (hdev : env.FirstDevice dev)
    (hopen : env.opens dev = true) (hformats : (env.device dev).formats = []) :
    Outcome env (some .nullTransmit)
  | hangs {dev : FileName} {pixelformat : UInt32} (henc : env.encoder = true)
    (hdev : env.FirstDevice dev) (hopen : env.opens dev = true)
    (hmem : pixelformat ∈ (env.device dev).formats)
    (hbad : ¬ (env.device dev).DiscreteIntervals pixelformat) : Outcome env none
  | noSender {dev : FileName} (henc : env.encoder = true) (hdev : env.FirstDevice dev)
    (hopen : env.opens dev = true) (hformats : (env.device dev).formats ≠ [])
    (hall : ∀ pixelformat ∈ (env.device dev).formats,
      (env.device dev).DiscreteIntervals pixelformat)
    (hsender : env.udpTransmit = false) : Outcome env (some .exited)
  | streams {dev : FileName} {pixelformat : UInt32} (henc : env.encoder = true)
    (hdev : env.FirstDevice dev) (hopen : env.opens dev = true)
    (hlast : (env.device dev).formats.getLast? = some pixelformat)
    (hall : ∀ pixelformat ∈ (env.device dev).formats,
      (env.device dev).DiscreteIntervals pixelformat)
    (hsender : env.udpTransmit = true) :
    Outcome env (some (.streaming dev (some (formatSpec pixelformat))))

theorem Outcome.eventually {env : Environment} {result : Option Startup} (h : Outcome env result) :
    ∀ᶠ fuel in atTop, startup fuel env = result := by
  cases h with
  | noEncoder henc => exact Eventually.of_forall (startup_noEncoder henc)
  | noDevice henc hdev => exact Eventually.of_forall (startup_noDevice hdev)
  | notOpened henc hdev hopen => exact Eventually.of_forall (startup_notOpened henc hdev hopen)
  | noFormats henc hdev hopen hformats =>
      have hreturns := startup_returns henc hdev hopen (by simp [hformats])
      simpa [hformats] using hreturns
  | hangs henc hdev hopen hmem hbad =>
      exact Eventually.of_forall (startup_hangs henc hdev hopen hmem hbad)
  | noSender henc hdev hopen hformats hall hsender =>
      have hreturns := startup_returns henc hdev hopen hall
      rw [List.getLast?_eq_some_getLast hformats] at hreturns
      simpa [hsender] using hreturns
  | streams henc hdev hopen hlast hall hsender =>
      have hreturns := startup_returns henc hdev hopen hall
      rw [hlast] at hreturns
      simpa [hsender] using hreturns

theorem exists_outcome (env : Environment) : ∃ result, Outcome env result := by
  cases henc : env.encoder with
  | false => exact ⟨_, .noEncoder henc⟩
  | true =>
      by_cases hdev : ∃ dev, env.FirstDevice dev
      · obtain ⟨dev, hdev⟩ := hdev
        cases hopen : env.opens dev with
        | false => exact ⟨_, .notOpened henc hdev hopen⟩
        | true =>
            by_cases hall : ∀ pixelformat ∈ (env.device dev).formats,
                (env.device dev).DiscreteIntervals pixelformat
            · cases hlast : (env.device dev).formats.getLast? with
              | none => exact ⟨_, .noFormats henc hdev hopen (List.getLast?_eq_none_iff.mp hlast)⟩
              | some pixelformat =>
                  cases hsender : env.udpTransmit with
                  | true => exact ⟨_, .streams henc hdev hopen hlast hall hsender⟩
                  | false =>
                      refine ⟨_, .noSender henc hdev hopen ?_ hall hsender⟩
                      intro hnil
                      simp [hnil] at hlast
            · simp only [not_forall] at hall
              obtain ⟨pixelformat, hmem, hbad⟩ := hall
              exact ⟨_, .hangs henc hdev hopen hmem hbad⟩
      · exact ⟨_, .noDevice henc (not_exists.mp hdev)⟩

/-- **How far `main` gets**, in every environment: with turns enough for the enumeration of the
formats it comes to the outcome and to no other.  So it calls through a null pointer exactly when
the device with the least name cannot be opened or has no formats, never gets on exactly when one of
that device's sizes has no discrete intervals, and otherwise asks for its last format and starts. -/
theorem startup_iff (env : Environment) (result : Option Startup) :
    (∀ᶠ fuel in atTop, startup fuel env = result) ↔ Outcome env result := by
  constructor
  · intro h
    obtain ⟨other, houtcome⟩ := exists_outcome env
    obtain ⟨fuel, hresult, hother⟩ := (h.and houtcome.eventually).exists
    rw [← hresult, hother]
    exact houtcome
  · exact Outcome.eventually

example : enumerateVideo4LinuxDevices
    [⟨⟨[118, 105, 100, 101, 111, 50]⟩, true⟩, ⟨⟨[118, 105, 100, 101, 111, 49, 48]⟩, true⟩,
      ⟨⟨[118, 105, 100, 101, 111, 48]⟩, true⟩, ⟨⟨[110, 117, 108, 108]⟩, true⟩] =
    [⟨[118, 105, 100, 101, 111, 48]⟩, ⟨[118, 105, 100, 101, 111, 50]⟩] := by decide

end NaiveStreaming
