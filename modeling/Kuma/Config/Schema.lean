import Kuma.Overrides.Declared

/-! A declaration, with every key its validation reads. Tables are in the order of their keys. -/
namespace Kuma
open Kuma.Overrides Kuma.Sync

namespace Config

structure System where
  base : Option String
  firmware : Option (List String)
  desktop : Desktop
  caCertificates : List (String × String)
  shell : Option String
  timezone : Option String
  hostname : Option String
  locale : Option String

structure User where
  name : String
  shell : Option String
  groups : List String
  passwordHash : Option String
  sshKeys : List String

structure Packages where
  rpm : List String
  flatpak : List String
  brew : List String

structure Services where
  enable : List String
  disable : List String

structure Snapshots where
  enable : Bool
  target : String
  interval : String
  keepRecent : UInt32
  keepDaily : UInt32

structure Backup where
  enable : Bool
  repo : String
  secret : String
  interval : String
  keepDaily : UInt32
  keepWeekly : UInt32
  keepMonthly : UInt32
  exclude : List String

structure NostrRelay where
  enable : Bool

structure Nostr where
  enable : Bool
  relays : List String
  relay : NostrRelay
  inactivityLockSecs : Option UInt64

end Config

structure Config where
  schemaVersion : UInt32
  system : Config.System
  user : Option Config.User
  packages : Config.Packages
  services : Config.Services
  snapshots : Config.Snapshots
  backup : Config.Backup
  overrides : List (String × AppOverride)
  nostr : Config.Nostr

namespace Config

/-- What is absent from a file stands for this. -/
def System.default : System := ⟨none, none, .none, [], none, none, none, none⟩

def Snapshots.default : Snapshots := ⟨false, "/var/home", "hourly", 24, 7⟩

def Backup.default : Backup := ⟨false, "", "backup", "daily", 7, 4, 6, []⟩

def Nostr.default : Nostr := ⟨false, ["wss://relay.nip46.com"], ⟨false⟩, none⟩

/-- A file that says nothing but its version. -/
def default : Config where
  schemaVersion := 1
  system := .default
  user := none
  packages := ⟨[], [], []⟩
  services := ⟨[], []⟩
  snapshots := .default
  backup := .default
  overrides := []
  nostr := .default

end Config
end Kuma
