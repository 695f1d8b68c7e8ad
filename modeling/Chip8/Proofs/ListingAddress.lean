import Chip8.Command.ArgumentSyntax
import Chip8.Command.Disassemble
import Chip8.Proofs.AssemblyMeaning
import Chip8.Proofs.ListingReassembly

/-!
# Addresses of a printed listing

A listing is printed for an image that will be loaded, so its addresses should be those
at which the image then stands.  They are when the program base is named.  Without a base
the command takes the program base as well, but as a decimal number, `512`, which it then
reads like any other base, as hexadecimal: such a listing begins at `0x512`.

None of this depends on how arguments are read in general.  `ReadsArguments` says what is
needed of a reader: the text behind `--base` is the value of this option, and without it the
text of its default is.

## Key results

- `Memory.pair_of_load_initial`: where the bytes of an image stand once it is loaded
- `ReadsArguments.ofArguments?_path`, `ReadsArguments.ofArguments?_base`: the base that is used
- `disassemble_addresses`: the addresses of a printed listing, and those in memory
- `readsArguments`: the reader of the program is one for which they hold
-/

namespace Chip8

/-! ## Images in memory -/

namespace Memory

/-- Above the font a new memory is zero. -/
theorem getElem_initial {k : Nat} (hk : k < 4096) (h : 0x50 ≤ k) : initial.bytes[k] = 0 := by
  rw [getElem_initial_eq_getD hk, List.getD_eq_getElem?_getD, List.getElem?_eq_none h]
  rfl

/-- An image that is loaded into a new memory stands there from the program base on, followed
    by zeros. -/
theorem pair_of_load_initial {m : Memory} {image : List UInt8} (h : initial.load image = .ok m)
    {k : Nat} (hk : 0x200 + k + 2 ≤ 4096) :
    m.pair (0x200 + k) = .ok (image.getD k 0, image.getD (k + 1) 0) := by
  have hbyte : ∀ k (hk : 0x200 + k < 4096), m.bytes[0x200 + k] = image.getD k 0 := by
    intro k hk
    -- From the program base on, the byte is that of the image, or the zero that was there before.
    rw [getElem_of_load h hk, getElem_initial hk (by omega), List.getD_eq_getElem?_getD]
  rw [pair, dif_pos hk, hbyte k (by omega)]
  exact congrArg (fun low => Except.ok (_, low)) (hbyte (k + 1) (by omega))

end Memory

namespace Command

open Text Assembly

/-! ## The arguments -/

namespace DisassembleSettings

/-- What the disassembler relies on in the reader of its arguments: a path is a positional
    argument, the option `--base` takes the argument behind it as its value, and without that
    option the text of its default is read in its place. -/
structure ReadsArguments (arguments? : ArgumentReader) (path : String) : Prop where
  default_base : ∃ i, arguments? specs 1 [path] = some i ∧ i.positionals = [path] ∧
    i.flags = [] ∧ i.values.lookup "base" = some defaultBase
  given_base : ∀ text : String, text.toList.head? ≠ some '-' →
    ∃ i, arguments? specs 1 ["--base", text, path] = some i ∧ i.positionals = [path] ∧
      i.flags = [] ∧ i.values.lookup "base" = some text

variable {arguments? : ArgumentReader} {path : String}

private theorem ofArguments?_of_invocation {arguments : List String} {i : Invocation}
    {text : String} {base : UInt16} (hinvocation : arguments? specs 1 arguments = some i)
    (hpath : i.positionals = [path]) (hflags : i.flags = [])
    (htext : i.values.lookup "base" = some text) (hbase : base? text.toList = some base) :
    ofArguments? arguments? arguments = some { input := path, base, source := false } := by
  simp [ofArguments?, hinvocation, Invocation.value?, Invocation.has, hpath, hflags, htext, hbase]

/-- Without a base, the settings have the base `0x512`. -/
theorem ReadsArguments.ofArguments?_path (h : ReadsArguments arguments? path) :
    ofArguments? arguments? [path] = some { input := path, base := 0x512, source := false } := by
  obtain ⟨i, hinvocation, hpath, hflags, htext⟩ := h.default_base
  -- The program base is printed as `512`, and these digits are read in the other radix.
  have hbase : base? defaultBase.toList = some 0x512 := by decide +kernel
  exact ofArguments?_of_invocation hinvocation hpath hflags htext hbase

/-- With a base, the settings have that base. -/
theorem ReadsArguments.ofArguments?_base (h : ReadsArguments arguments? path) {text : String}
    {base : UInt16} (hdash : text.toList.head? ≠ some '-')
    (hbase : base? text.toList = some base) :
    ofArguments? arguments? ["--base", text, path] =
      some { input := path, base, source := false } := by
  obtain ⟨i, hinvocation, hpath, hflags, htext⟩ := h.given_base text hdash
  exact ofArguments?_of_invocation hinvocation hpath hflags htext hbase

end DisassembleSettings

/-! ## The reader of the program -/

/-- A path that is not taken for an option. -/
def IsPath (path : String) : Prop := path ≠ "" ∧ standsAsValue path = true

instance (path : String) : Decidable (IsPath path) := inferInstanceAs (Decidable (_ ∧ _))

private theorem standsAsValue_of_head? {text : String} (h : text.toList.head? ≠ some '-') :
    standsAsValue text = true := by
  unfold standsAsValue
  split
  · rename_i hlist
    rw [hlist] at h
    exact absurd rfl h
  · rfl

private theorem items?_path {specs : List OptionSpec} {path : String} (hpath : IsPath path) :
    items? specs [path] = some [.positional path] := by
  have hvalue := hpath.2
  have hdashes : path ≠ "--" := by
    rintro rfl
    exact absurd hvalue (by decide)
  have hreading : Reading.ofArgument? specs path = some (.complete [.positional path]) := by
    unfold standsAsValue at hvalue
    unfold Reading.ofArgument?
    split at hvalue
    · exact nomatch hvalue
    · rename_i hnot
      -- A path that stands as a value begins with no dash that something follows.
      split
      · rename_i body hlist
        exact absurd hlist (hnot _ _)
      · rename_i c rest _ hlist
        exact absurd hlist (hnot _ _)
      · rfl
  rw [items?, if_neg hdashes, hreading]
  rfl

/-- The reader of the program is one that the disassembler can rely on. -/
theorem readsArguments {path : String} (hpath : IsPath path) :
    DisassembleSettings.ReadsArguments readArguments? path where
  default_base := by
    have hread : readArguments? DisassembleSettings.specs 1 [path] =
        some (.ofItems DisassembleSettings.specs [.positional path]) := by
      simp [readArguments?, items?_path hpath, Invocation.ofItems, List.filterMap_cons, Item.name?,
        hpath.1]
    exact ⟨_, hread, rfl, rfl, rfl⟩
  given_base := by
    intro text hdash
    have hoption : Reading.ofArgument? DisassembleSettings.specs "--base" =
        some (.awaitsValue [] "base") := by decide
    have hitems : items? DisassembleSettings.specs ["--base", text, path] =
        some [.option "base" text, .positional path] := by
      rw [items?, if_neg (by decide), hoption]
      simp [standsAsValue_of_head? hdash, items?_path hpath]
    have hread : readArguments? DisassembleSettings.specs 1 ["--base", text, path] =
        some (.ofItems DisassembleSettings.specs [.option "base" text, .positional path]) := by
      simp [readArguments?, hitems, Invocation.ofItems, List.filterMap_cons, Item.name?, hpath.1]
    exact ⟨_, hread, rfl, rfl, rfl⟩

/-! ## What is printed -/

/-- A row of a listing has the word with its number, at its own address. -/
private theorem getElem?_listing (image : List UInt8) (base : UInt16) (n : Nat) :
    (listing image base)[n]? =
      if n < (image.length + 1) / 2 then
        let word := Word.ofBytes (image.getD (2 * n) 0) (image.getD (2 * n + 1) 0)
        some { address := UInt16.ofNat (base.toNat + 2 * n), word, text := statementOf word }
      else none := by
  rw [listing, getElem?_rowsOf, getElem?_wordsOf]
  split <;> rfl

/-- The text of a listing begins with its base. -/
private theorem toList_linesText_listing {image : List UInt8} (h : image ≠ []) (base : UInt16) :
    ∃ rest, (linesText ((listing image base).map Row.line)).toList =
      hexText 4 base.toNat ++ rest := by
  have hcons : ∃ word words, wordsOf image = word :: words := by
    refine List.exists_cons_of_ne_nil fun hnil => h (List.length_eq_zero_iff.1 ?_)
    have hlength := length_wordsOf image
    rw [hnil, List.length_nil] at hlength
    omega
  obtain ⟨word, words, hwords⟩ := hcons
  rw [listing, hwords, rowsOf]
  simp [linesText, Row.line, hex]

private theorem length_hexText_address (address : UInt16) :
    (hexText 4 address.toNat).length = 4 := by
  -- Four hexadecimal digits are enough for sixteen bits.
  have hlog : address.toNat.log2 < 16 := by
    rcases Nat.eq_zero_or_pos address.toNat with hzero | hpos
    · rw [hzero]
      decide
    · exact (Nat.log2_lt (Nat.ne_of_gt hpos)).2 address.toNat_lt
  rw [hexText, length_hexDigits, hexLength]
  omega

/-- Listings of the same image at different addresses are different texts. -/
theorem linesText_listing_inj {image : List UInt8} (hne : image ≠ []) {base base' : UInt16}
    (h : linesText ((listing image base).map Row.line) =
      linesText ((listing image base').map Row.line)) : base = base' := by
  obtain ⟨rest, hrest⟩ := toList_linesText_listing hne base
  obtain ⟨rest', hrest'⟩ := toList_linesText_listing hne base'
  rw [h, hrest'] at hrest
  have hlength : (hexText 4 base'.toNat).length = (hexText 4 base.toNat).length := by
    rw [length_hexText_address, length_hexText_address]
  have hdigits := digits?_hexText 4 base.toNat
  -- The first four characters are the digits of the base, and those can be read back.
  rw [← (List.append_inj hrest hlength).1, digits?_hexText, Option.some.injEq] at hdigits
  exact UInt16.toNat_inj.1 hdigits.symm

/-- With settings for a listing, a file that can be read is listed from the base on. -/
private theorem disassemble_of_settings {arguments? : ArgumentReader} {read : FileReader Id}
    {arguments : List String} {path : String} {base : UInt16} {image : List UInt8}
    (h : DisassembleSettings.ofArguments? arguments? arguments =
      some { input := path, base, source := false })
    (hread : read path = some image) :
    disassemble arguments? read arguments =
      .success (linesText ((listing image base).map Row.line)) := by
  simp [disassemble, h, hread, DisassembleSettings.print, pure, bind]

/-- With a base the listing starts there. -/
theorem disassemble_base {arguments? : ArgumentReader} {read : FileReader Id}
    {path text : String} {base : UInt16} {image : List UInt8}
    (harguments : DisassembleSettings.ReadsArguments arguments? path)
    (hread : read path = some image) (hdash : text.toList.head? ≠ some '-')
    (hbase : DisassembleSettings.base? text.toList = some base) :
    disassemble arguments? read ["--base", text, path] =
      .success (linesText ((listing image base).map Row.line)) :=
  disassemble_of_settings (harguments.ofArguments?_base hdash hbase) hread

/-- Without a base the listing starts at `0x512`. -/
theorem disassemble_path {arguments? : ArgumentReader} {read : FileReader Id} {path : String}
    {image : List UInt8} (harguments : DisassembleSettings.ReadsArguments arguments? path)
    (hread : read path = some image) :
    disassemble arguments? read [path] =
      .success (linesText ((listing image 0x512).map Row.line)) :=
  disassemble_of_settings harguments.ofArguments?_path hread

/-- The addresses of a printed listing.  In the listing of a program from `0x200` on, a row
    shows where a machine that has loaded the program holds the word of the row.  Without a
    base the listing is that from `0x512` on: of a program that is not empty it is another
    text, in which every address is off by `0x312`. -/
theorem disassemble_addresses {arguments? : ArgumentReader} {read : FileReader Id}
    {path : String} {image : List UInt8}
    (harguments : DisassembleSettings.ReadsArguments arguments? path)
    (hread : read path = some image) (hfit : image.length ≤ Memory.programCapacity)
    (random : RandomSource) :
    ∃ m : Machine,
      (Machine.new random).load image = (.ok (), m) ∧
        disassemble arguments? read ["--base", "0x200", path] =
          .success (linesText ((listing image 0x200).map Row.line)) ∧
        disassemble arguments? read [path] =
          .success (linesText ((listing image 0x512).map Row.line)) ∧
        (disassemble arguments? read [path] =
          disassemble arguments? read ["--base", "0x200", path] ↔ image = []) ∧
        (listing image 0x200).length = (image.length + 1) / 2 ∧
        ∀ n (r : Row), (listing image 0x200)[n]? = some r →
          r.address.toNat = 0x200 + 2 * n ∧
            r.word = Word.ofBytes (image.getD (2 * n) 0) (image.getD (2 * n + 1) 0) ∧
            m.state.memory.pair r.address.toNat = .ok (r.word.high, r.word.kk) ∧
            (listing image 0x512)[n]? = some { r with address := r.address + 0x312 } := by
  have hcapacity : Memory.programCapacity = 3584 := rfl
  have hnamed : disassemble arguments? read ["--base", "0x200", path] =
      .success (linesText ((listing image 0x200).map Row.line)) :=
    disassemble_base harguments hread (by decide) (by decide +kernel)
  have hunnamed := disassemble_path harguments hread
  obtain ⟨memory, hload⟩ : ∃ memory, Memory.initial.load image = .ok memory :=
    ⟨_, if_pos hfit⟩
  refine ⟨_, Machine.load_new random hload, hnamed, hunnamed, ?_, ?_, fun n r hr => ?_⟩
  · rw [hnamed, hunnamed]
    refine ⟨fun h => ?_, ?_⟩
    · -- Equal texts would begin with the same address.
      by_contra hne
      have hbase := linesText_listing_inj hne (congrArg Outcome.output h)
      exact absurd hbase (by decide)
    · rintro rfl
      rfl
  · rw [listing, length_rowsOf, length_wordsOf]
  · rw [getElem?_listing] at hr
    split at hr
    · rename_i hn
      cases hr
      have haddress : (UInt16.ofNat (0x200 + 2 * n)).toNat = 0x200 + 2 * n := by
        rw [UInt16.toNat_ofNat']
        omega
      refine ⟨haddress, rfl, ?_, ?_⟩
      · rw [Word.high_ofBytes, Word.kk_ofBytes]
        exact (congrArg memory.pair haddress).trans (Memory.pair_of_load_initial hload (by omega))
      · have hshift : UInt16.ofNat (0x512 + 2 * n) = UInt16.ofNat (0x200 + 2 * n) + 0x312 := by
          rw [← UInt16.toNat_inj, UInt16.toNat_add, UInt16.toNat_ofNat', UInt16.toNat_ofNat']
          show _ = (_ + 0x312) % _
          omega
        rw [getElem?_listing, if_pos hn]
        exact congrArg (fun address => some (Row.mk address _ _)) hshift
    · exact nomatch hr

/-- Of a program of two instructions the second stands at `0x202`, where its listing from
    `0x200` on shows it. -/
theorem disassemble_addresses_rom :
    let image : List UInt8 := [0x00, 0xE0, 0xA2, 0x2A]
    let read : FileReader Id := fun path => if path = "rom" then some image else none
    IsPath "rom" ∧ read "rom" = some image ∧ image.length ≤ Memory.programCapacity ∧
      (listing image 0x200)[1]? = some { address := 0x202, word := 0xA22A, text := "LD I, #22A" } ∧
      (listing image 0x512)[1]? = some { address := 0x514, word := 0xA22A, text := "LD I, #22A" } ∧
      disassemble readArguments? read ["rom"] ≠
        disassemble readArguments? read ["--base", "0x200", "rom"] ∧
      ∃ m : Machine, (Machine.new (.counter 0 1)).load image = (.ok (), m) ∧
        m.state.memory.pair 0x202 = .ok (0xA2, 0x2A) := by
  intro image read
  have hpath : IsPath "rom" := by decide
  have hread : read "rom" = some image := rfl
  have hfit : image.length ≤ Memory.programCapacity := by decide
  have hrow : (listing image 0x200)[1]? =
      some { address := 0x202, word := 0xA22A, text := "LD I, #22A" } := by decide +kernel
  obtain ⟨m, hload, -, -, hsame, -, hrows⟩ :=
    disassemble_addresses (readsArguments hpath) hread hfit (.counter 0 1)
  obtain ⟨-, -, hpair, hshifted⟩ := hrows 1 _ hrow
  refine ⟨hpath, hread, hfit, hrow, ?_, ?_, m, hload, hpair⟩
  · rw [hshifted]
    decide
  · intro h
    exact absurd (hsame.1 h) (by decide)

/-- What a listing without a base shows is not what memory holds: the row of the program
    `00E0` shows `0x512`, where a machine that has loaded it holds a zero word. -/
theorem disassemble_address_misplaced :
    let image : List UInt8 := [0x00, 0xE0]
    let read : FileReader Id := fun path => if path = "rom" then some image else none
    disassemble readArguments? read ["rom"] = .success "0512: 00E0  CLS\n" ∧
      disassemble readArguments? read ["--base", "0x200", "rom"] =
        .success "0200: 00E0  CLS\n" ∧
      ∃ m : Machine, (Machine.new (.counter 0 1)).load image = (.ok (), m) ∧
        m.state.memory.pair 0x512 = .ok (0x00, 0x00) ∧
        m.state.memory.pair 0x200 = .ok (0x00, 0xE0) := by
  intro image read
  have hpath : IsPath "rom" := by decide
  have harguments := readsArguments hpath
  obtain ⟨memory, hload⟩ : ∃ memory, Memory.initial.load image = .ok memory :=
    ⟨_, if_pos (by decide)⟩
  refine ⟨?_, ?_, _, Machine.load_new _ hload, ?_, ?_⟩
  · rw [disassemble_path harguments rfl]
    exact congrArg Outcome.success (by decide +kernel)
  · have hbase : DisassembleSettings.base? "0x200".toList = some 0x200 := by decide +kernel
    rw [disassemble_base harguments rfl (by decide) hbase]
    exact congrArg Outcome.success (by decide +kernel)
  · exact Memory.pair_of_load_initial hload (k := 0x312) (by decide)
  · exact Memory.pair_of_load_initial hload (k := 0) (by decide)

end Command

end Chip8
