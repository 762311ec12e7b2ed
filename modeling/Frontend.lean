import Frontend.Main
import Frontend.Parser.Session
import Frontend.Proofs.Language
import Frontend.Proofs.RoundTrip
import Frontend.Proofs.Shape
import Frontend.Proofs.Spacing
import Frontend.Proofs.Totality
import Frontend.Proofs.Window
import Frontend.Proofs.Termination
import Frontend.Proofs.Listing
import Frontend.Proofs.Yield
import Frontend.Proofs.Joining
import Frontend.Proofs.Integrity
import Frontend.Proofs.Sites
import Frontend.Proofs.Borders
import Frontend.Proofs.Registration
import Frontend.Proofs.Decimal
import Frontend.Proofs.Absence
import Frontend.Proofs.Log
import Frontend.Proofs.Cursor
import Frontend.Proofs.Munch
import Frontend.Proofs.Dialogue
import Frontend.Proofs.Turns
