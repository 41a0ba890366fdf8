import Mcpdef.Audit.Ledger
import Mcpdef.Listener.Headers

/-!
# The files a config names

The config by what of it names a file, and whether it is watched.  The files it reads as input are those of
`referencedFiles`; a secret that is read where it is used, as an upstream's or the console's is, may be in a file too.
-/

namespace Mcpdef.Reload

open Audit Listener

/-- Where a secret is. -/
inductive SecretRef
  | literal (value : Text)
  | env (name : String)
  | file (path : Text)
  | exec (program : String) (args : List String)
deriving DecidableEq

/-- The file, when it is in one. -/
def SecretRef.path : SecretRef → Option Text
  | .file path => some path
  | _ => none

structure TlsConfig where
  ca : Option (List Text) := none
  crl : Option (List Text) := none
  clientCert : Option Text := none
  clientKey : Option SecretRef := none

/-- Every file the table names. -/
def TlsConfig.files (t : TlsConfig) : List Text :=
  t.ca.getD [] ++ t.crl.getD [] ++ t.clientCert.toList ++ (t.clientKey.bind SecretRef.path).toList

structure ClientAuthConfig where
  ca : List Text := []
  crl : List Text := []

def ClientAuthConfig.files (t : ClientAuthConfig) : List Text := t.ca ++ t.crl

structure ListenerTlsConfig where
  cert : Option Text := none
  key : Option SecretRef := none
  clientAuth : ClientAuthConfig := {}

/-- Every file the table names. -/
def ListenerTlsConfig.files (t : ListenerTlsConfig) : List Text :=
  t.cert.toList ++ (t.key.bind SecretRef.path).toList ++ t.clientAuth.files

structure ServerConfig where
  wasm : Option Text := none
  tls : Option TlsConfig := none
  /-- What its environment is set to, by name. -/
  env : List (String × SecretRef) := []
  /-- The secret of its `[server.auth]`. -/
  auth : Option SecretRef := none

/-- The module, unless its path is blank. -/
def ServerConfig.wasmPath (s : ServerConfig) : Option Text :=
  (s.wasm.map (trimMatches isWhitespace)).filter fun path => path ≠ []

def ServerConfig.envFiles (s : ServerConfig) : List Text := s.env.filterMap fun value => value.2.path

structure SessionConfig where
  key : Option SecretRef := none
  previousKey : Option SecretRef := none

structure Config where
  /-- `[gateway.auth] jwks`. -/
  jwks : Option Text := none
  upstreamTls : TlsConfig := {}
  tls : ListenerTlsConfig := {}
  adminTls : Option ListenerTlsConfig := none
  /-- `[gateway.admin.oidc] client_secret`. -/
  clientSecret : Option SecretRef := none
  session : Option SessionConfig := none
  servers : List ServerConfig := []
  watchConfig : Bool := false
  profile : Option String := none

namespace Config

/-- The file that `jwks` names, unless it holds the keys itself. -/
def jwksFile (c : Config) : Option Text :=
  c.jwks.filter fun jwks => (trimStart isWhitespace jwks).head? ≠ some '{'

/-- The files it reads as input, besides itself. -/
def referencedFiles (c : Config) : List Text :=
  c.jwksFile.toList ++ c.servers.filterMap ServerConfig.wasmPath ++
    (c.upstreamTls :: c.servers.filterMap ServerConfig.tls).flatMap TlsConfig.files ++
    c.servers.flatMap ServerConfig.envFiles ++ (c.tls :: c.adminTls.toList).flatMap ListenerTlsConfig.files

/-- The files that its other secrets are in. -/
def secretFiles (c : Config) : List Text :=
  (c.servers.filterMap ServerConfig.auth ++ c.clientSecret.toList ++
    c.session.toList.flatMap fun session => session.key.toList ++ session.previousKey.toList).filterMap SecretRef.path

/-- Every file it names. -/
def namedFiles (c : Config) : List Text := c.referencedFiles ++ c.secretFiles

end Config

end Mcpdef.Reload
