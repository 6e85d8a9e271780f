import TSubSpec.Auth.Characters
import TSubSpec.Auth.Encryption
import TSubSpec.Auth.Signing
import TSubSpec.Auth.TestPhones
import TSubSpec.BestFlight.Languages
import TSubSpec.BestFlight.SearchResults
import TSubSpec.BestFlight.UserSettings
import TSubSpec.FirstStart.Choices
import TSubSpec.Media.Commands
import TSubSpec.Media.Inputs
import TSubSpec.Media.Isolation
import TSubSpec.Media.Pending
import TSubSpec.Media.Processor
import TSubSpec.Media.StartupLog
import TSubSpec.Media.Uploading
import TSubSpec.Ogg.Integrity
import TSubSpec.Ogg.Transport
import TSubSpec.Ogg.Unpacking
import TSubSpec.Prisma.Exactness
import TSubSpec.Prisma.Guard
import TSubSpec.Prisma.Indices
import TSubSpec.Prisma.Justified
import TSubSpec.Prisma.Layout
import TSubSpec.Prisma.Refinement
import TSubSpec.Prisma.Shown
