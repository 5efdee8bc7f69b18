import DivGuard.Proofs.Text.Decimal

/-!
# What a command line can ask for

Whatever options are read, the width is one of 1 to 64 and a target named by an option has words of
64 bits.  All options of that form can be asked for: written out one after the other they are read
back.
-/

namespace DivGuard

variable {text : String} {t : Target}

theorem Target.wordBits_of_parse? (h : Target.parse? text = some t) : t.wordBits = 64 := by
  simp only [Target.parse?, Option.map_eq_some_iff] at h
  obtain ⟨arch, -, rfl⟩ := h
  rfl

/-- The word for an operation, on the command line and in listings. -/
def DivOp.spelling : DivOp → String
  | .sdiv => "sdiv"
  | .srem => "srem"
  | .udiv => "udiv"
  | .urem => "urem"

def Arch.spelling : Arch → String
  | .x86_64 => "x86_64"
  | .aarch64 => "aarch64"

theorem DivOp.name_eq_spelling (op : DivOp) : op.name = op.spelling := by
  cases op <;> rfl

theorem Target.parse?_spelling (arch : Arch) : Target.parse? arch.spelling = some { arch } := by
  cases arch <;> rfl

theorem DivOp.ofName?_spelling (op : DivOp) : ofName? op.spelling = some op := by
  cases op <;> rfl

namespace Inspect

variable {o o' : Options} {name : OptionName} {value : String} {given : List OptionName}
  {rest : List String}

structure Options.Valid (o : Options) : Prop where
  one_le_bits : 1 ≤ o.bits
  bits_le : o.bits ≤ 64
  wordBits_eq : ∀ t ∈ o.target?, t.wordBits = 64

theorem Options.Valid.set? (ho : o.Valid) (h : o.set? value name = some o') : o'.Valid := by
  cases name with
  | target =>
      simp only [Options.set?, Option.map_eq_some_iff] at h
      obtain ⟨t, ht, rfl⟩ := h
      refine ⟨ho.one_le_bits, ho.bits_le, ?_⟩
      rintro t' ⟨rfl⟩
      exact Target.wordBits_of_parse? ht
  | bits =>
      simp only [Options.set?, Option.map_eq_some_iff] at h
      obtain ⟨bits, hbits, rfl⟩ := h
      obtain ⟨hpos, hle⟩ := bounds_of_widthOfDecimal? hbits
      exact ⟨hpos, hle, ho.wordBits_eq⟩
  | op | dividend | divisor =>
      simp only [Options.set?, Option.map_eq_some_iff] at h
      obtain ⟨_, -, rfl⟩ := h
      exact ⟨ho.one_le_bits, ho.bits_le, ho.wordBits_eq⟩
  | force =>
      obtain rfl := Option.some.inj h
      exact ⟨ho.one_le_bits, ho.bits_le, ho.wordBits_eq⟩

theorem Options.Valid.set (ho : o.Valid) (h : o.set name value = .ok o') : o'.Valid := by
  unfold Options.set at h
  split at h
  · cases h
  · next hset =>
    obtain rfl := Except.ok.inj h
    exact ho.set? hset

theorem readArguments_valid {arguments : List String} (ho : o.Valid)
    (h : readArguments arguments given o = .ok (.show o')) : o'.Valid := by
  fun_induction readArguments arguments given o with
  | case1 | case4 =>
      obtain rfl := Request.show.inj (Except.ok.inj h)
      exact ho
  | case9 | case11 | case15 =>
      rename_i hset _ ih
      exact ih (ho.set hset) h
  | _ => cases h

/-! ## Writing options out -/

def OptionName.flag : OptionName → String
  | .target => "--target"
  | .op => "--op"
  | .bits => "--bits"
  | .dividend => "--dividend"
  | .divisor => "--divisor"
  | .force => "--force"

theorem Argument.read_flag (name : OptionName) : Argument.read name.flag = .option name none := by
  cases name <;> rfl

def Options.targetArguments : Option Target → List String
  | none => []
  | some t => ["--target", t.arch.spelling]

/-- The options written out in full, each under its name. -/
def Options.arguments (o : Options) : List String :=
  "--op" :: o.op.spelling :: "--bits" :: toString o.bits ::
  "--dividend" :: toString o.dividend :: "--divisor" :: toString o.divisor ::
  ((if o.force then ["--force"] else []) ++ targetArguments o.target?)

theorem readArguments_flag (hgiven : given.contains name = false)
    (htakes : name.takesValue = true)
    (hvalue : Argument.looksLikeOption value = false ∨ name.takesHyphen = true)
    (hset : o.set? value name = some o') :
    readArguments (name.flag :: value :: rest) given o =
      readArguments rest (name :: given) o' := by
  have hset' : o.set name value = .ok o' := by rw [Options.set, hset]
  have hplain : ¬(Argument.looksLikeOption value && !name.takesHyphen) = true := by
    rcases hvalue with h | h <;> simp [h]
  simp only [readArguments, Argument.read_flag, hgiven, htakes, hset']
  rw [if_neg hplain]
  rfl

theorem looksLikeOption_toString (n : Nat) : Argument.looksLikeOption (toString n) = false := by
  have hdigits : ∀ c ∈ (toString n).toList, c.isDigit = true := by
    rw [Nat.toString_eq_repr, Nat.toList_repr]
    intro c hc
    exact Text.isDigit_of_mem_toDigits hc
  unfold Argument.looksLikeOption
  split
  · next heq => exact absurd (hdigits '-' (heq ▸ List.mem_cons_self)) (by decide)
  · rfl

theorem looksLikeOption_opSpelling (op : DivOp) : Argument.looksLikeOption op.spelling = false := by
  cases op <;> rfl

theorem looksLikeOption_archSpelling (arch : Arch) :
    Argument.looksLikeOption arch.spelling = false := by
  cases arch <;> rfl

theorem readArguments_target {target? : Option Target} (hword : ∀ t ∈ target?, t.wordBits = 64)
    (hgiven : given.contains .target = false) (o : Options) (hnone : o.target? = none) :
    readArguments (Options.targetArguments target?) given o =
      .ok (.show { o with target? }) := by
  cases target? with
  | none =>
      obtain ⟨_, _, _, _, _, _⟩ := o
      obtain rfl := hnone
      rfl
  | some t =>
      obtain ⟨arch, wordBits⟩ := t
      obtain rfl : wordBits = 64 := hword _ rfl
      have hset : o.set? arch.spelling .target = some { o with target? := some { arch } } := by
        rw [Options.set?, Target.parse?_spelling]
        rfl
      exact readArguments_flag hgiven rfl (.inl (looksLikeOption_archSpelling arch)) hset

theorem readArguments_force (hgiven : given.contains .force = false) (o : Options) :
    readArguments ("--force" :: rest) given o =
      readArguments rest (.force :: given) { o with force := true } := by
  have hread : Argument.read "--force" = .option .force none := Argument.read_flag .force
  conv_lhs => unfold readArguments
  simp only [hread, hgiven]
  rfl

theorem Options.Valid.read_arguments (ho : o.Valid) :
    Request.read o.arguments = .ok (.show o) := by
  obtain ⟨target?, op, bits, dividend, divisor, force⟩ := o
  have hop : Options.set? {} op.spelling .op = some { op } := by
    rw [Options.set?, DivOp.ofName?_spelling]
    rfl
  have hbits : Options.set? { op } (toString bits) .bits = some { op, bits } := by
    rw [Options.set?, widthOfDecimal?_toString ho.one_le_bits ho.bits_le]
    rfl
  have hdividend : Options.set? { op, bits } (toString dividend) .dividend =
      some { op, bits, dividend } := by
    rw [Options.set?, Text.wordOfDecimal?_toString]
    rfl
  have hdivisor : Options.set? { op, bits, dividend } (toString divisor) .divisor =
      some { op, bits, dividend, divisor } := by
    rw [Options.set?, Text.wordOfDecimal?_toString]
    rfl
  refine (readArguments_flag rfl rfl (.inl (looksLikeOption_opSpelling op)) hop).trans ?_
  refine (readArguments_flag rfl rfl (.inl (looksLikeOption_toString bits)) hbits).trans ?_
  refine (readArguments_flag rfl rfl (.inr rfl) hdividend).trans ?_
  refine (readArguments_flag rfl rfl (.inr rfl) hdivisor).trans ?_
  cases force with
  | false => exact readArguments_target ho.wordBits_eq rfl { op, bits, dividend, divisor } rfl
  | true =>
      refine (readArguments_force rfl { op, bits, dividend, divisor }).trans ?_
      exact readArguments_target ho.wordBits_eq rfl
        { op, bits, dividend, divisor, force := true } rfl

/-- The options that a command line can ask for are those with a width of 1 to 64 and a target of
64-bit words, if any. -/
theorem Request.exists_read_iff :
    (∃ arguments, Request.read arguments = .ok (.show o)) ↔ o.Valid := by
  constructor
  · rintro ⟨arguments, hread⟩
    exact readArguments_valid ⟨by decide, by decide, by simp⟩ hread
  · intro ho
    exact ⟨o.arguments, ho.read_arguments⟩

end Inspect

end DivGuard
