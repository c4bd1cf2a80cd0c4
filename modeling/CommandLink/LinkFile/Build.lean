import CommandLink.LinkFile.Check
import CommandLink.LinkFile.Document
import CommandLink.LinkFile.Report

namespace CommandLink.LinkFile

/-- Why a link file cannot go into the firmware. -/
inductive Rejection where
  | missing
  | unreadable
  | badSyntax (line : List Char)
  | invalid (cs : List Complaint)

namespace Rejection

open Report

def bullet (c : Complaint) : List Char := row lineWidth ("• ".toList ++ c.message.toList)

def report? : Rejection → Option (List Char)
  | .missing => some (box [top, title "ERROR: link.toml not found!", title "",
      title "The firmware embeds link.toml as its link configuration.",
      title "Please create one in the flowlink-firmware directory.", bottom])
  | .unreadable => some (box [top, title "ERROR: Failed to read link.toml", title "",
      title "Error: stream did not contain valid UTF-8", bottom])
  | .badSyntax line => (messageRows? line).map fun rows =>
      box ([top, title "ERROR: Invalid TOML syntax in link.toml", middle] ++ rows ++ [bottom])
  | .invalid cs => some (box ([top, title "ERROR: Invalid link configuration", middle] ++
      cs.map bullet ++ [bottom]))

end Rejection

/-- The document of a link file, if nothing is wrong with it. -/
def accept (text : List Char) : Except Rejection Value :=
  match Document.parse text with
  | .error line => .error (.badSyntax line)
  | .ok d =>
    match complaints d.toValue with
    | [] => .ok d.toValue
    | cs => .error (.invalid cs)

def acceptFile : Option ByteArray → Except Rejection Value
  | none => .error .missing
  | some octets =>
    match String.fromUTF8? octets with
    | none => .error .unreadable
    | some text => accept text.toList

/-- Lines for the build tool, and the rejection that ends the build. -/
structure Build where
  printed : List String
  rejection : Option Rejection

namespace Build

def preamble (outDir : String) : List String :=
  ["cargo:rustc-link-search=" ++ outDir, "cargo:rerun-if-changed=memory.x",
   "cargo:rerun-if-changed=build.rs", "cargo:rerun-if-changed=link.toml"]

def warning (s : String) : String := "cargo:warning=" ++ s

def conclusion (document : Value) : List String :=
  ((slowLink? document).map fun w => warning w.message).toList ++
    [warning "link.toml validated successfully"]

def run (outDir : String) (file : Option ByteArray) : Build :=
  match acceptFile file with
  | .error r => ⟨preamble outDir, some r⟩
  | .ok document => ⟨preamble outDir ++ conclusion document, none⟩

def output (b : Build) : String := String.join (b.printed.map (· ++ "\n"))

/-- Where the linker puts the firmware. -/
def memoryLayout : String := String.join
  ["MEMORY \x7b\n",
   "    BOOT2 : ORIGIN = 0x10000000, LENGTH = 0x100\n",
   "    FLASH : ORIGIN = 0x10000100, LENGTH = 2048K - 0x100\n",
   "    RAM   : ORIGIN = 0x20000000, LENGTH = 256K\n",
   "\x7d\n",
   "\n",
   "EXTERN(BOOT2_FIRMWARE)\n",
   "\n",
   "SECTIONS \x7b\n",
   "    /* ### Boot loader */\n",
   "    .boot2 ORIGIN(BOOT2) :\n",
   "    \x7b\n",
   "        KEEP(*(.boot2));\n",
   "    \x7d > BOOT2\n",
   "\x7d INSERT BEFORE .text;\n"]

end Build

end CommandLink.LinkFile
