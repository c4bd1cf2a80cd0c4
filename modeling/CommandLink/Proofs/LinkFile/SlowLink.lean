import CommandLink.Proofs.LinkFile.Agreement
import CommandLink.Proofs.Line.TransferTime

namespace CommandLink

namespace LineFormat

/-- The line that the build check has in mind: eight data bits, no parity and one
stop bit, whatever is set. -/
def assumed (line : LineFormat) : LineFormat := { baudrate := line.baudrate }

theorem bitsPerByte_le (line : LineFormat) : line.bitsPerByte ≤ 13 := by
  have hdata : line.dataBits.count ≤ 9 := by cases line.dataBits <;> decide
  have hparity : line.parity.count ≤ 1 := by cases line.parity <;> decide
  have hstop : line.stopBits.count ≤ 2 := by cases line.stopBits <;> decide
  rw [bitsPerByte]
  omega

/-- The time of a packet fits into a word at any rate. -/
theorem toNat_transferTime (line : LineFormat) :
    (line.transferTime Frame.packetLength).toNat =
      (Frame.packetLength * line.bitsPerByte * 1000 + max line.baudrate.toNat 1 - 1) /
        max line.baudrate.toNat 1 := by
  have hbits := line.bitsPerByte_le
  have hrate := line.rate_pos
  apply toNat_transferTime_of_covers
  rw [Covers, Frame.packetLength]
  omega

theorem transferTime_mono {line line' : LineFormat} (hbaud : line.baudrate = line'.baudrate)
    (hbits : line.bitsPerByte ≤ line'.bitsPerByte) :
    line.transferTime Frame.packetLength ≤ line'.transferTime Frame.packetLength := by
  rw [UInt32.le_iff_toNat_le, toNat_transferTime, toNat_transferTime, hbaud]
  refine Nat.div_le_div_right (Nat.sub_le_sub_right (Nat.add_le_add_right ?_ _) _)
  exact Nat.mul_le_mul_right _ (Nat.mul_le_mul_left _ hbits)

end LineFormat

namespace LinkFile

theorem integer_of_inRange {low high : Int} {v : Value} (h : inRange low high v = true)
    (hlow : 0 ≤ low) : ∃ n : Nat, v = .integer n ∧ low ≤ n ∧ n ≤ high := by
  cases v with
  | integer i =>
    obtain ⟨hi, hi'⟩ := inRange_iff.mp h
    obtain ⟨n, rfl⟩ := Int.eq_ofNat_of_zero_le (Int.le_trans hlow hi)
    exact ⟨n, rfl, hi, hi'⟩
  | null | boolean | text | list | table | other => cases h

theorem word_of_inRange {low high : Int} {v : Value} (h : inRange low high v = true)
    (hlow : 0 ≤ low) (hhigh : high < UInt32.size) : ∃ w : UInt32, v = .integer w.toNat := by
  obtain ⟨n, rfl, -, hn⟩ := integer_of_inRange h hlow
  have hword : n < UInt32.size := Int.ofNat_lt.mp (Int.lt_of_le_of_lt hn hhigh)
  exact ⟨.ofNat n, by rw [UInt32.toNat_ofNat_of_lt' hword]⟩

theorem text_of_name? {α : Type} {ofName? : List Char → Option α} {v : Value}
    (h : (v.text?.bind ofName?).isSome = true) : ∃ cs a, v = .text cs ∧ ofName? cs = some a := by
  obtain ⟨a, ha⟩ := Option.isSome_iff_exists.mp h
  obtain ⟨cs, hcs, hname⟩ := Option.bind_eq_some_iff.mp ha
  cases v with
  | text => exact ⟨_, a, rfl, Option.some.inj hcs ▸ hname⟩
  | null | integer | boolean | list | table | other => cases hcs

theorem boolean_of_isSome {v : Value} (h : v.boolean?.isSome = true) : ∃ b, v = .boolean b := by
  cases v with
  | boolean b => exact ⟨b, rfl⟩
  | null | integer | text | list | table | other => cases h

/-- Every default passes its own check. -/
theorem admits_default (k : Key) : k.admits (({} : Configuration).value k) = true := by
  cases k <;> decide

theorem dataBits_of_inRange {v : Value} (h : inRange 7 8 v = true) :
    ∃ d : DataBits, v = .integer d.count := by
  obtain ⟨n, rfl, hlow, hhigh⟩ := integer_of_inRange h (by decide)
  obtain rfl | rfl : n = 7 ∨ n = 8 := by omega
  · exact ⟨.seven, rfl⟩
  · exact ⟨.eight, rfl⟩

theorem stopBits_of_inRange {v : Value} (h : inRange 1 2 v = true) :
    ∃ d : StopBits, v = .integer d.count := by
  obtain ⟨n, rfl, hlow, hhigh⟩ := integer_of_inRange h (by decide)
  obtain rfl | rfl : n = 1 ∨ n = 2 := by omega
  · exact ⟨.one, rfl⟩
  · exact ⟨.two, rfl⟩

/-- Values that the build check admits are those of a configuration. -/
theorem exists_configuration {f : Key → Value} (h : ∀ k : Key, k.admits (f k) = true) :
    ∃ c : Configuration, ∀ k, c.value k = f k := by
  obtain ⟨idle, hidle⟩ := word_of_inRange (h .idleTimeout) (by decide) (by decide)
  obtain ⟨overwrite, hoverwrite⟩ := boolean_of_isSome (h .rxOverwrite)
  obtain ⟨sync, hsync⟩ := boolean_of_isSome (h .zeroSync)
  obtain ⟨replies, hreplies⟩ := boolean_of_isSome (h .errorReplies)
  obtain ⟨cs, coverage, hchecksum, hcoverage⟩ := text_of_name? (h .checksum)
  obtain ⟨baud, hbaud⟩ := word_of_inRange (h .baudrate) (by decide) (by decide)
  obtain ⟨data, hdata⟩ := dataBits_of_inRange (h .dataBits)
  obtain ⟨cs', parity, hparity, hname⟩ := text_of_name? (h .parity)
  obtain ⟨stop, hstop⟩ := stopBits_of_inRange (h .stopBits)
  rw [(coverage_of_name? hcoverage).1] at hchecksum
  rw [(parity_of_name? hname).1] at hparity
  refine ⟨⟨⟨idle, overwrite, sync, replies, coverage⟩, ⟨baud, data, parity, stop⟩⟩, fun k => ?_⟩
  cases k <;> symm <;> assumption

/-- The configuration that a document asks for. Keys that it does not name keep
their defaults. -/
def Configures (document : Value) (c : Configuration) : Prop :=
  ∀ k, c.value k = (settingAt? document k).getD (({} : Configuration).value k)

variable {document : Value} {c : Configuration}

theorem admits_settingAt (h : complaints document = []) (k : Key) :
    k.admits ((settingAt? document k).getD (({} : Configuration).value k)) = true := by
  cases hv : settingAt? document k with
  | none => exact admits_default k
  | some v =>
    obtain ⟨k', hk', hadmits⟩ := admits_of_complaints h hv
    obtain rfl := Option.some.inj (k.ofName?_name.symm.trans hk')
    exact hadmits

theorem exists_configures (h : complaints document = []) : ∃ c, Configures document c :=
  exists_configuration (admits_settingAt h)

theorem integerAt_eq {k : Key} {i standard : Int}
    (h : (settingAt? document k).getD (.integer standard) = .integer i) :
    integerAt document k standard = i := by
  change ((settingAt? document k).bind Value.integer?).getD standard = i
  cases hv : settingAt? document k with
  | none =>
    rw [hv] at h
    cases h
    rfl
  | some v =>
    rw [hv] at h
    obtain rfl : v = .integer i := h
    rfl

theorem Configures.integerAt_idle (h : Configures document c) :
    integerAt document .idleTimeout 2000 = c.settings.idleTimeout.toNat :=
  integerAt_eq (h .idleTimeout).symm

theorem Configures.integerAt_baud (h : Configures document c) :
    integerAt document .baudrate 115200 = c.line.baudrate.toNat :=
  integerAt_eq (h .baudrate).symm

theorem Configures.baudrate_bounds (h : Configures document c)
    (hcomplaints : complaints document = []) :
    0 < c.line.baudrate.toNat ∧ (c.line.baudrate.toNat : Int) ≤ maxBaudrate := by
  have hadmits := admits_settingAt hcomplaints .baudrate
  rw [← h .baudrate] at hadmits
  obtain ⟨hlow, hhigh⟩ := inRange_iff.mp hadmits
  exact ⟨Int.ofNat_lt.mp hlow, hhigh⟩

/-- A number that a signed word of 64 bits can hold. -/
def int64? (i : Int) : Option Int := if -2 ^ 63 ≤ i ∧ i < 2 ^ 63 then some i else none

theorem int64?_eq_some {i : Int} (hlow : -2 ^ 63 ≤ i) (hhigh : i < 2 ^ 63) : int64? i = some i :=
  if_pos ⟨hlow, hhigh⟩

/-- The quotient of signed words, rounded towards zero. There is none by zero. -/
def quotient? (a b : Int) : Option Int := if b = 0 then none else int64? (a.tdiv b)

/-- `packetTime` in signed words, with no answer where a step of it overflows. -/
def packetTimeInside? (baud : Int) : Option Int := do
  let bits ← int64? (Frame.packetLength * 10)
  let scaled ← int64? (bits * 1000)
  let raised ← int64? (scaled + baud)
  let numerator ← int64? (raised - 1)
  quotient? numerator baud

/-- `slowLink?` in signed words. -/
def slowLinkInside? (document : Value) : Option (Option SlowLink) :=
  let idle := integerAt document .idleTimeout 2000
  let baud := integerAt document .baudrate 115200
  (packetTimeInside? baud).map fun packet =>
    if idle ≤ packet then some ⟨idle, baud, packet⟩ else none

theorem packetTimeInside?_eq {baud : Int} (hlow : 0 < baud) (hhigh : baud ≤ maxBaudrate) :
    packetTimeInside? baud = some (packetTime baud) := by
  rw [maxBaudrate] at hhigh
  -- the largest step is the sum at the highest rate
  have hfits {i : Int} (h : 0 ≤ i) (h' : i ≤ 2560000 + 7812500) : int64? i = some i :=
    int64?_eq_some (by omega) (by omega)
  have hscaled : (Frame.packetLength * 10 * 1000 : Int) = 2560000 := rfl
  have hnumerator : (0 : Int) ≤ Frame.packetLength * 10 * 1000 + baud - 1 := by omega
  have hquotient := Int.ediv_le_self baud hnumerator
  have hquotient' := Int.ediv_nonneg hnumerator (Int.le_of_lt hlow)
  rw [packetTimeInside?, Option.bind_eq_bind, hfits (by decide) (by decide), Option.bind_some,
    hfits (by decide) (by decide), Option.bind_some, hfits (by omega) (by omega),
    Option.bind_some, hfits hnumerator (by omega), Option.bind_some, quotient?,
    if_neg (Int.ne_of_gt hlow), Int.tdiv_eq_ediv_of_nonneg hnumerator,
    hfits hquotient' (by omega), packetTime]

/-- The build check reckons with the line it has in mind. -/
theorem packetTime_eq {line : LineFormat} (h : 0 < line.baudrate.toNat) :
    packetTime line.baudrate.toNat = (line.assumed.transferTime Frame.packetLength).toNat := by
  have hmax : max line.baudrate.toNat 1 = line.baudrate.toNat := Nat.max_eq_left h
  have hbits : line.assumed.bitsPerByte = 10 := rfl
  rw [line.assumed.toNat_transferTime, hbits, packetTime, LineFormat.assumed, hmax,
    Int.natCast_ediv]
  congr 1
  omega

theorem SlowLink.exists_message (w : SlowLink) :
    ∃ rest, w.message = "idle_timeout_ms (" ++ rest := by
  unfold message
  simp only [String.append_assoc]
  exact ⟨_, rfl⟩

theorem SlowLink.message_ne (w : SlowLink) :
    Build.warning w.message ≠ Build.warning "link.toml validated successfully" := by
  intro h
  obtain ⟨rest, hrest⟩ := w.exists_message
  have hmessage := (String.append_right_inj "cargo:warning=").mp h
  rw [hrest, ← String.toList_inj, String.toList_append] at hmessage
  have hhead := congrArg List.head? hmessage
  rw [List.head?_append_of_ne_nil _ (by decide)] at hhead
  exact absurd hhead (by decide)

theorem mem_conclusion_iff {w : SlowLink} :
    Build.warning w.message ∈ Build.conclusion document ↔
      ∃ w', slowLink? document = some w' ∧ Build.warning w'.message = Build.warning w.message := by
  rw [Build.conclusion, List.mem_append, List.mem_singleton, Option.mem_toList,
    Option.map_eq_some_iff]
  exact or_iff_left w.message_ne

/-- What there is to warn of at a configuration. -/
def Configuration.slowLink (c : Configuration) : SlowLink where
  idle := c.settings.idleTimeout.toNat
  baud := c.line.baudrate.toNat
  packet := (c.line.assumed.transferTime Frame.packetLength).toNat

theorem Configures.slowLink? (h : Configures document c) (hcomplaints : complaints document = []) :
    slowLink? document =
      if c.settings.idleTimeout ≤ c.line.assumed.transferTime Frame.packetLength
      then some c.slowLink else none := by
  unfold LinkFile.slowLink?
  dsimp only
  rw [h.integerAt_idle, h.integerAt_baud, packetTime_eq (h.baudrate_bounds hcomplaints).1]
  simp only [Int.ofNat_le, UInt32.le_iff_toNat_le]
  rfl

theorem Configures.warned_iff (h : Configures document c) (hcomplaints : complaints document = []) :
    Build.warning c.slowLink.message ∈ Build.conclusion document ↔
      c.settings.idleTimeout ≤ c.line.assumed.transferTime Frame.packetLength := by
  rw [mem_conclusion_iff, h.slowLink? hcomplaints]
  split
  · rename_i hslow
    exact iff_of_true ⟨_, rfl, rfl⟩ hslow
  · rename_i hfast
    refine iff_of_false ?_ hfast
    rintro ⟨w, hw, -⟩
    cases hw

theorem Configures.slowLinkInside?_eq (h : Configures document c)
    (hcomplaints : complaints document = []) :
    slowLinkInside? document = some (LinkFile.slowLink? document) := by
  obtain ⟨hlow, hhigh⟩ := h.baudrate_bounds hcomplaints
  unfold slowLinkInside?
  dsimp only
  rw [h.integerAt_baud, packetTimeInside?_eq (Int.ofNat_lt.mpr hlow) hhigh, ← h.integerAt_baud]
  rfl

/-- A document without complaints configures a line, the check of its packet time
neither divides by zero nor overflows, and there is a warning exactly if a packet would
take as long as the idle timeout at ten bits an octet. Lines with more bits than that
are slower than the check takes them to be. -/
theorem slow_link_warned {document : Value} (h : complaints document = []) :
    slowLinkInside? document = some (slowLink? document) ∧ (∃ c, Configures document c) ∧
      ∀ c, Configures document c →
        (Build.warning c.slowLink.message ∈ Build.conclusion document ↔
          c.settings.idleTimeout ≤ c.line.assumed.transferTime Frame.packetLength) ∧
        (c.line.bitsPerByte ≤ 10 →
          c.settings.idleTimeout ≤ c.line.transferTime Frame.packetLength →
          Build.warning c.slowLink.message ∈ Build.conclusion document) := by
  obtain ⟨c, hc⟩ := exists_configures h
  refine ⟨hc.slowLinkInside?_eq h, ⟨c, hc⟩, fun c' hc' => ⟨hc'.warned_iff h, ?_⟩⟩
  intro hbits hslow
  have hassumed : c'.line.transferTime Frame.packetLength ≤
      c'.line.assumed.transferTime Frame.packetLength := LineFormat.transferTime_mono rfl hbits
  exact (hc'.warned_iff h).mpr (UInt32.le_trans hslow hassumed)

/-- An idle timeout, and 9600 baud with a framing. -/
def lineDocument (idle : UInt32) (parity : Parity) (stop : StopBits) : Value :=
  .table [
    ("link".toList, .table [("idle_timeout_ms".toList, .integer idle.toNat)]),
    ("uart".toList, .table [("baudrate".toList, .integer 9600),
      ("parity".toList, .text parity.name.toList), ("stop_bits".toList, .integer stop.count)])]

def lineConfiguration (idle : UInt32) (parity : Parity) (stop : StopBits) : Configuration where
  settings := { idleTimeout := idle }
  line := { baudrate := 9600, parity := parity, stopBits := stop }

theorem configures_line (idle : UInt32) (parity : Parity) (stop : StopBits) :
    Configures (lineDocument idle parity stop) (lineConfiguration idle parity stop) := by
  intro k
  cases k <;> rfl

theorem complaints_line {idle : UInt32} (h : Key.idleTimeout.admits (.integer idle.toNat) = true)
    (parity : Parity) (stop : StopBits) : complaints (lineDocument idle parity stop) = [] := by
  refine complaints_eq_nil_iff.mpr fun heading fields hfields p hp => ?_
  cases heading with
  | link =>
    obtain rfl := Option.some.inj hfields
    obtain rfl := List.mem_singleton.mp hp
    exact ⟨_, Key.idleTimeout.ofName?_name, h⟩
  | uart =>
    obtain rfl := Option.some.inj hfields
    simp only [List.mem_cons, List.not_mem_nil, or_false] at hp
    obtain rfl | rfl | rfl := hp
    · exact ⟨_, Key.baudrate.ofName?_name, by decide⟩
    · exact ⟨_, Key.parity.ofName?_name, by cases parity <;> decide⟩
    · exact ⟨_, Key.stopBits.ofName?_name, by cases stop <;> decide⟩

/-- 267 milliseconds a packet at 9600 baud. -/
theorem slow_link_warned_standard : complaints (lineDocument 267 .none .one) = [] ∧
    Build.warning (lineConfiguration 267 .none .one).slowLink.message ∈
      Build.conclusion (lineDocument 267 .none .one) := by
  have hcomplaints : complaints (lineDocument 267 .none .one) = [] :=
    complaints_line (by decide) .none .one
  have hconfigures := configures_line 267 .none .one
  refine ⟨hcomplaints, ((slow_link_warned hcomplaints).2.2 _ hconfigures).2 (by decide) ?_⟩
  decide

/-- With parity and two stop bits a packet takes 320 milliseconds, and there is no
warning. -/
theorem slow_link_missed : complaints (lineDocument 300 .even .two) = [] ∧
    Configures (lineDocument 300 .even .two) (lineConfiguration 300 .even .two) ∧
    (lineConfiguration 300 .even .two).settings.idleTimeout ≤
      (lineConfiguration 300 .even .two).line.transferTime Frame.packetLength ∧
    Build.conclusion (lineDocument 300 .even .two) =
      [Build.warning "link.toml validated successfully"] := by
  have hcomplaints : complaints (lineDocument 300 .even .two) = [] :=
    complaints_line (by decide) .even .two
  have hconfigures := configures_line 300 .even .two
  refine ⟨hcomplaints, hconfigures, by decide, ?_⟩
  rw [Build.conclusion, hconfigures.slowLink? hcomplaints, if_neg (by decide)]
  rfl

end LinkFile

end CommandLink
